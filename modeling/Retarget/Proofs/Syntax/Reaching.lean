import Retarget.Proofs.Syntax.Openings

/-!
# Reading up to a place

`Rule.Reaches` says that a rule reads a text up to a given rest.  The lemmas here put such
readings together, shape by shape: a choice reaches what its first fitting alternative
reaches, a repetition (`Repeats`) and a part that grows (`Grows`) reach what their last turn
leaves.  Names, keywords and quoted texts reach their ends if what stands behind them does
not go on with them.
-/

namespace Retarget.Syntax

variable {N : Type} {enter : N → List Char → Remnant} {a b s : Rule N} {left k l : Option Kind}
  {cs r t : List Char}

namespace Rule

/-- A rule reads a text up to a given rest. -/
def Reaches (enter : N → List Char → Remnant) (a : Rule N) (left : Option Kind)
    (cs r : List Char) : Prop :=
  ∃ k, a.scan enter left cs = some (k, r)

theorem Reaches.of_scan (h : a.scan enter left cs = some (k, r)) : a.Reaches enter left cs r :=
  ⟨k, h⟩

theorem reaches_form {x : N} (h : ∃ k, enter x cs = some (k, r)) (left : Option Kind) :
    (form x).Reaches enter left cs r :=
  h

theorem reaches_nothing : (nothing : Rule N).Reaches enter left cs cs :=
  ⟨none, rfl⟩

theorem Reaches.then (ha : a.Reaches enter left cs r) (hb : b.Reaches enter left r t) :
    (then_ a b).Reaches enter left cs t := by
  obtain ⟨k, hk⟩ := ha
  obtain ⟨l, hl⟩ := hb
  exact ⟨l.or k, by simp [scan, hk, hl]⟩

theorem scan_then_of_first (ha : a.scan enter left cs = none) :
    (then_ a b).scan enter left cs = none := by
  simp [scan, ha]

theorem Reaches.then_none (ha : a.Reaches enter left cs r) (hb : b.scan enter left r = none) :
    (then_ a b).scan enter left cs = none := by
  obtain ⟨k, hk⟩ := ha
  simp [scan, hk, hb]

theorem scan_or_of_none (ha : a.scan enter left cs = none) :
    (or_ a b).scan enter left cs = b.scan enter left cs := by
  simp [scan, ha]

theorem scan_or_of_some {x : Option Kind × List Char} (ha : a.scan enter left cs = some x) :
    (or_ a b).scan enter left cs = some x := by
  simp [scan, ha]

theorem Reaches.or_left (ha : a.Reaches enter left cs r) : (or_ a b).Reaches enter left cs r :=
  ha.imp fun _ => scan_or_of_some

theorem Reaches.or_right (hb : b.Reaches enter left cs r) (ha : a.scan enter left cs = none) :
    (or_ a b).Reaches enter left cs r :=
  hb.imp fun _ hk => (scan_or_of_none ha).trans hk

theorem Reaches.opt (ha : a.Reaches enter left cs r) : (opt a).Reaches enter left cs r :=
  ha.or_left

theorem reaches_opt_of_none (ha : a.scan enter left cs = none) :
    (opt a).Reaches enter left cs cs :=
  reaches_nothing.or_right ha

theorem Reaches.scan_node (ha : a.Reaches enter left cs r) (t : NodeType) :
    (node t a).scan enter left cs = some (some (.named t), r) := by
  obtain ⟨k, hk⟩ := ha
  simp [scan, hk]

theorem Reaches.scan_around (ha : a.Reaches enter left cs r) (t : NodeType) (f : Option Field) :
    (around t f a).scan enter left cs = some (some (.named t), r) := by
  obtain ⟨k, hk⟩ := ha
  simp [scan, hk]

theorem Reaches.node (ha : a.Reaches enter left cs r) (t : NodeType) :
    (node t a).Reaches enter left cs r :=
  .of_scan (ha.scan_node t)

theorem scan_node_of_none (ha : a.scan enter left cs = none) (t : NodeType) :
    (node t a).scan enter left cs = none := by
  simp [scan, ha]

theorem Reaches.role (ha : a.Reaches enter left cs r) (f : Field) :
    (role f a).Reaches enter left cs r :=
  ha

/-- The alternatives before the one that fits do not matter. -/
theorem scan_any_append {rs : List (Rule N)} (hrs : rs ≠ []) {before : List (Rule N)}
    (h : ∀ a ∈ before, a.scan enter left cs = none) :
    (any (before ++ rs)).scan enter left cs = (any rs).scan enter left cs := by
  induction before with
  | nil => rfl
  | cons a before ih =>
    obtain ⟨c, tail, htail⟩ := List.exists_cons_of_ne_nil (l := before ++ rs) (by simp [hrs])
    have hrest := ih fun x hx => h x (List.mem_cons_of_mem _ hx)
    rw [List.cons_append]
    rw [htail] at hrest ⊢
    exact (scan_or_of_none (h a List.mem_cons_self)).trans hrest

theorem scan_any_of_first {x : Option Kind × List Char} (h : a.scan enter left cs = some x)
    (rs : List (Rule N)) : (any (a :: rs)).scan enter left cs = some x := by
  cases rs with
  | nil => exact h
  | cons b rs => exact scan_or_of_some h

theorem scan_any_of_none {rs : List (Rule N)} (h : ∀ a ∈ rs, a.scan enter left cs = none) :
    (any rs).scan enter left cs = none := by
  induction rs with
  | nil => rfl
  | cons a rs ih =>
    cases rs with
    | nil => exact h a List.mem_cons_self
    | cons b rs =>
      exact (scan_or_of_none (h a List.mem_cons_self)).trans
        (ih fun x hx => h x (List.mem_cons_of_mem _ hx))

theorem reaches_unless (ha : a.scan enter left cs = none) :
    («unless» a).Reaches enter left cs cs :=
  ⟨none, by simp [scan, ha]⟩

/-- A check changes nothing. -/
theorem scan_after {test : NodeType → Bool} {t : NodeType} {kind : Kind} (ht : test t = true)
    (ha : a.scan enter (some (.named t)) cs = some (some kind, r)) :
    (then_ (after test) a).scan enter (some (.named t)) cs = some (some kind, r) := by
  simp [scan, ht, ha]

/-! ## Repetitions -/

/-- Scanning again and again leads from a text to a rest where nothing fits. -/
inductive Repeats (scan : List Char → Remnant) : List Char → List Char → Prop
  | stop {cs : List Char} (h : scan cs = none) : Repeats scan cs cs
  | turn {cs t r : List Char} {k : Option Kind} (h : scan cs = some (k, t))
      (shorter : t.length < cs.length) (more : Repeats scan t r) : Repeats scan cs r

theorem Repeats.scanMany {scan : List Char → Remnant} (h : Repeats scan cs r) {n : Nat}
    (hn : cs.length < n) : (scanMany scan n cs).2 = r := by
  induction h generalizing n with
  | stop h =>
    obtain ⟨n, rfl⟩ : ∃ m, n = m + 1 := ⟨n - 1, by omega⟩
    simp [Rule.scanMany, h]
  | turn h shorter _ ih =>
    obtain ⟨n, rfl⟩ : ∃ m, n = m + 1 := ⟨n - 1, by omega⟩
    simp [Rule.scanMany, h, shorter, ih (n := n) (by omega)]

theorem Repeats.reaches (h : Repeats (a.scan enter left) cs r) :
    (many a).Reaches enter left cs r := by
  have hr := h.scanMany (Nat.lt_succ_self _)
  exact ⟨_, by rw [scan, ← hr]⟩

theorem reaches_many_form {x : N} (h : Repeats (enter x) cs r) (left : Option Kind) :
    (many (form x)).Reaches enter left cs r :=
  Repeats.reaches (a := form x) h

/-- Steps lead from a part and a text to a grown part and a rest where no step fits. -/
inductive Grows (step : Option Kind → List Char → Remnant) :
    Option Kind → List Char → Option Kind → List Char → Prop
  | stop {k : Option Kind} {cs : List Char} (h : step k cs = none) : Grows step k cs k cs
  | turn {k l m : Option Kind} {cs t r : List Char} (h : step k cs = some (l, t))
      (shorter : t.length < cs.length) (more : Grows step l t m r) : Grows step k cs m r

theorem Grows.scanGrow {step : Option Kind → List Char → Remnant} (h : Grows step k cs l r)
    {n : Nat} (hn : cs.length < n) : scanGrow step n k cs = (l, r) := by
  induction h generalizing n with
  | stop h =>
    obtain ⟨n, rfl⟩ : ∃ m, n = m + 1 := ⟨n - 1, by omega⟩
    simp [Rule.scanGrow, h]
  | turn h shorter _ ih =>
    obtain ⟨n, rfl⟩ : ∃ m, n = m + 1 := ⟨n - 1, by omega⟩
    simp [Rule.scanGrow, h, shorter, ih (n := n) (by omega)]

theorem Grows.scan (h : Grows (s.scan enter) k r l t) (ha : a.scan enter left cs = some (k, r)) :
    (grow a s).scan enter left cs = some (l, t) := by
  simp [Rule.scan, ha, h.scanGrow (Nat.lt_succ_self _)]

theorem scan_grow_of_none (ha : a.scan enter left cs = none) :
    (grow a s).scan enter left cs = none := by
  simp [Rule.scan, ha]

/-! ## Lexemes -/

theorem scan_lexeme {kind : Kind} {s : Scan} {w : List Char} (hcs : Lexeme.skip cs = w ++ r)
    (hs : s (w ++ r) = some w.length) (left : Option Kind) :
    (lexeme kind s : Rule N).scan enter left cs = some (some kind, r) := by
  simp [Rule.scan, hcs, hs]

theorem scan_lexeme_of_none {kind : Kind} {s : Scan} (hcs : Lexeme.skip cs = t)
    (hs : s t = none) (left : Option Kind) :
    (lexeme kind s : Rule N).scan enter left cs = none := by
  simp [Rule.scan, hcs, hs]

end Rule

namespace Lexeme

/-! ## Gaps -/

/-- A gap does not matter. -/
theorem skip_gap {c : Char} (hc : isGap c = true) (cs : List Char) : skip (c :: cs) = skip cs := by
  have hsame (n : Nat) : afterGaps (n + 1) (c :: cs) = afterGaps (n + 1) cs := by
    rw [afterGaps_succ, afterGaps_succ, List.dropWhile_cons_of_pos hc]
  unfold skip
  rw [hsame]
  exact afterGaps_eq (by rw [List.length_cons]; omega) (Nat.lt_succ_self _)

/-- Gaps do not matter. -/
theorem skip_gaps {gaps : List Char} (h : gaps.all isGap = true) (cs : List Char) :
    skip (gaps ++ cs) = skip cs := by
  induction gaps with
  | nil => rfl
  | cons c gaps ih =>
    obtain ⟨hc, hgaps⟩ : isGap c = true ∧ gaps.all isGap = true := by simpa using h
    exact (skip_gap hc _).trans (ih hgaps)

/-- What is no gap and opens no comment stays. -/
theorem skip_cons {c : Char} (hc : isGap c = false) (hslash : c ≠ '/') (cs : List Char) :
    skip (c :: cs) = c :: cs := by
  have hcomment : comment (c :: cs) = none := by
    unfold comment
    split <;> simp_all
  unfold skip
  rw [afterGaps_succ, List.dropWhile_cons_of_neg (by simp [hc]), hcomment]
  rfl

/-- Whether a character does not end the line that it stands in. -/
def isInLine (c : Char) : Bool :=
  c != '\n' && c != '\r' && c != '\u2028' && c != '\u2029'

theorem run_append {p : Char → Bool} {a b : List Char} (ha : a.all p = true)
    (hb : ∀ c, b.head? = some c → p c = false) : run p (a ++ b) = a.length := by
  induction a with
  | nil => exact run_of_head hb
  | cons c a ih =>
    obtain ⟨hc, ha⟩ : p c = true ∧ a.all p = true := by simpa using ha
    simp [run, hc, ih ha]

/-- A comment up to the end of its line does not matter. -/
theorem skip_comment {line : List Char} (hline : line.all isInLine = true) (cs : List Char) :
    skip ('/' :: '/' :: (line ++ '\n' :: cs)) = skip cs := by
  have hrun : run isInLine (line ++ '\n' :: cs) = line.length :=
    run_append hline (by simp [isInLine])
  have hcomment : comment ('/' :: '/' :: (line ++ '\n' :: cs)) = some (2 + line.length) :=
    congrArg (fun n => some (2 + n)) hrun
  have hdrop : ('/' :: '/' :: (line ++ '\n' :: cs)).drop (2 + line.length) = '\n' :: cs := by
    rw [Nat.add_comm, List.drop_succ_cons, List.drop_succ_cons, List.drop_left]
  rw [← skip_gap (c := '\n') (by decide) cs]
  unfold skip
  rw [afterGaps_succ, List.dropWhile_cons_of_neg (by decide), hcomment, Option.map_some, hdrop]
  exact afterGaps_eq (by simp; omega) (Nat.lt_succ_self _)

/-! ## Names -/

/-- Whether a text is a name: a word without escapes. -/
def isName : List Char → Bool
  | [] => false
  | c :: r => isWordStart c && r.all isWordChar

/-- A rest that does not go on with the word before it. -/
def EndsWord (r : List Char) : Prop :=
  ∀ c, r.head? = some c → isWordChar c = false ∧ c ≠ '\\'

variable {w v r : List Char}

theorem word_append (hw : isName w = true) (hr : EndsWord r) : word (w ++ r) = some w.length := by
  cases w with
  | nil => cases hw
  | cons c w =>
    obtain ⟨hc, hw⟩ : isWordStart c = true ∧ w.all isWordChar = true := by
      simpa [isName] using hw
    have hrun : run isWordChar (w ++ r) = w.length := run_append hw fun x hx => (hr x hx).1
    have hend : r.head? ≠ some '\\' := fun h => (hr _ h).2 rfl
    simp only [word, List.cons_append, hc, if_true, hrun, List.drop_left, if_neg hend,
      List.length_cons]
    rw [Nat.add_comm]

/-- A name is a keyword only if it is spelled like it. -/
theorem keyword_append (hw : isName w = true) (hr : EndsWord r) :
    keyword v (w ++ r) = if v = w then some w.length else none := by
  unfold keyword
  rw [word_append hw hr]
  by_cases hv : v = w
  · simp [hv]
  · rw [if_neg hv]
    refine if_neg fun h => hv ?_
    obtain ⟨hbegins, hlength⟩ : v.isPrefixOf (w ++ r) = true ∧ w.length = v.length := by
      simpa using h
    obtain ⟨t, ht⟩ := List.isPrefixOf_iff_prefix.mp hbegins
    exact (List.append_inj ht hlength.symm).1

theorem wordExcept_append (hw : isName w = true) (hr : EndsWord r) {reserved : List (List Char)} :
    wordExcept reserved (w ++ r) = if w ∈ reserved then none else some w.length := by
  simp [wordExcept, word_append hw hr]

/-- Visible characters of ASCII are no gaps. -/
theorem isGap_of_visible {c : Char} (hlo : 0x20 < c.toNat) (hhi : c.toNat < 0x80) :
    isGap c = false := by
  have hne (d : Char) (hd : 0x80 ≤ d.toNat) : (c == d) = false := by
    rw [beq_eq_false_iff_ne]
    rintro rfl
    omega
  have hblank : Text.isBlank c = false := by
    unfold Text.isBlank
    rw [if_pos hhi]
    simp
    omega
  rw [isGap, hblank, hne _ (by decide), hne _ (by decide), hne _ (by decide)]
  rfl

theorem toNat_of_isDigit {c : Char} (hc : c.isDigit = true) :
    0x30 ≤ c.toNat ∧ c.toNat ≤ 0x39 := by
  obtain ⟨hlo, hhi⟩ := Bool.and_eq_true_iff.mp hc
  exact ⟨of_decide_eq_true hlo, of_decide_eq_true hhi⟩

theorem toNat_of_isAlpha {c : Char} (hc : c.isAlpha = true) :
    0x41 ≤ c.toNat ∧ c.toNat ≤ 0x7a := by
  rcases Bool.or_eq_true_iff.mp hc with hupper | hlower
  · obtain ⟨hlo, hhi⟩ := of_decide_eq_true hupper
    exact ⟨hlo, hhi.trans (by decide)⟩
  · obtain ⟨hlo, hhi⟩ := Bool.and_eq_true_iff.mp hlower
    have hlo : 0x61 ≤ c.toNat := of_decide_eq_true hlo
    exact ⟨le_trans (by decide) hlo, of_decide_eq_true hhi⟩

theorem visible_of_isAlphanum {c : Char} (hc : c.isAlphanum = true) :
    0x20 < c.toNat ∧ c.toNat < 0x80 := by
  rcases Bool.or_eq_true_iff.mp hc with hc | hc
  · have hletter := toNat_of_isAlpha hc
    omega
  · have hdigit := toNat_of_isDigit hc
    omega

theorem isGap_of_isWordStart {c : Char} (h : isWordStart c = true) : isGap c = false := by
  unfold isWordStart isWordChar at h
  split at h
  · next hc =>
    obtain ⟨hlo, hhi⟩ := visible_of_isAlphanum hc
    exact isGap_of_visible hlo hhi
  · simp_all

theorem skip_name (hw : isName w = true) (r : List Char) : skip (w ++ r) = w ++ r := by
  cases w with
  | nil => cases hw
  | cons c w =>
    obtain ⟨hc, -⟩ : isWordStart c = true ∧ w.all isWordChar = true := by
      simpa [isName] using hw
    refine skip_cons (isGap_of_isWordStart hc) ?_ _
    rintro rfl
    revert hc
    decide

theorem spelled_append (w r : List Char) : spelled w (w ++ r) = some w.length := by
  simp [spelled]

end Lexeme

namespace Rule

variable {v w : List Char}

theorem scan_sign {w : String} (hcs : Lexeme.skip cs = w.toList ++ r) (left : Option Kind) :
    (sign w : Rule N).scan enter left cs = some (some .token, r) :=
  scan_lexeme hcs (Lexeme.spelled_append w.toList r) left

theorem scan_mark {w stops : String} (hcs : Lexeme.skip cs = w.toList ++ r)
    (hr : ∀ c, r.head? = some c → stops.toList.contains c = false) (left : Option Kind) :
    (mark w stops : Rule N).scan enter left cs = some (some .token, r) := by
  have hmark : Lexeme.mark w.toList stops.toList (w.toList ++ r) = some w.toList.length := by
    cases r with
    | nil => simp [Lexeme.mark, Lexeme.spelled]
    | cons c r =>
      have hc := hr c rfl
      simp only [Lexeme.mark, Lexeme.spelled_append, List.drop_left, Option.bind_eq_bind,
        Option.bind_some, hc]
      rfl
  exact scan_lexeme hcs hmark left

theorem scan_word {w : String} (hcs : Lexeme.skip cs = w.toList ++ r)
    (hw : Lexeme.isName w.toList = true) (hr : Lexeme.EndsWord r) (left : Option Kind) :
    (word w : Rule N).scan enter left cs = some (some .token, r) :=
  scan_lexeme hcs ((Lexeme.keyword_append hw hr).trans (if_pos rfl)) left

/-- A keyword does not fit another name. -/
theorem scan_word_of_ne {v : String} (hcs : Lexeme.skip cs = w ++ r)
    (hw : Lexeme.isName w = true) (hr : Lexeme.EndsWord r) (hne : v.toList ≠ w)
    (left : Option Kind) : (word v : Rule N).scan enter left cs = none :=
  scan_lexeme_of_none hcs ((Lexeme.keyword_append hw hr).trans (if_neg hne)) left

theorem scan_leaf_word {t : NodeType} (hcs : Lexeme.skip cs = w ++ r)
    (hw : Lexeme.isName w = true) (hr : Lexeme.EndsWord r) (left : Option Kind) :
    (leaf t Lexeme.word : Rule N).scan enter left cs = some (some (.named t), r) :=
  scan_lexeme hcs (Lexeme.word_append hw hr) left

theorem scan_leaf_wordExcept {t : NodeType} {reserved : List (List Char)}
    (hcs : Lexeme.skip cs = w ++ r) (hw : Lexeme.isName w = true) (hr : Lexeme.EndsWord r)
    (hnot : w ∉ reserved) (left : Option Kind) :
    (leaf t (Lexeme.wordExcept reserved) : Rule N).scan enter left cs =
      some (some (.named t), r) :=
  scan_lexeme hcs ((Lexeme.wordExcept_append hw hr).trans (if_neg hnot)) left

end Rule

end Retarget.Syntax
