import Retarget.Proofs.Syntax.Reading

/-!
# Reading without places

Where nodes stand and how far reading got in vain does not matter for what a rule accepts.
`Rule.scan` is `Rule.read` without both: it gives the text that is left behind a rule, and
the kind of the last node that was read, which is all that a step looks at in the part grown
so far.  `told_read` and `Grammar.told_read` prove that reading at a place and scanning the
text from there fail together and leave the same text.
-/

namespace Retarget.Syntax

open Place (bytes)

variable {N : Type}

/-- What scanning leaves of a text, with the kind of the last node. -/
abbrev Remnant := Option (Option Kind × List Char)

/-- The text behind the gaps and comments at the head of a text. -/
def Lexeme.skip (cs : List Char) : List Char :=
  afterGaps (cs.length + 1) cs

namespace Rule

/-- Scans again and again while the text gets shorter; `n` bounds the turns. -/
def scanMany (scan : List Char → Remnant) : Nat → List Char → Option Kind × List Char
  | 0, cs => (none, cs)
  | n + 1, cs =>
    match scan cs with
    | none => (none, cs)
    | some (k, r) =>
      if r.length < cs.length then ((scanMany scan n r).1.or k, (scanMany scan n r).2)
      else (none, cs)

/-- Grows a part while the text gets shorter; `n` bounds the turns. -/
def scanGrow (step : Option Kind → List Char → Remnant) :
    Nat → Option Kind → List Char → Option Kind × List Char
  | 0, k, cs => (k, cs)
  | n + 1, k, cs =>
    match step k cs with
    | none => (k, cs)
    | some (l, r) => if r.length < cs.length then scanGrow step n l r else (k, cs)

/-- Scans a rule.  `enter` scans the forms it refers to, and `left` is the kind of the part
grown so far. -/
def scan (enter : N → List Char → Remnant) : Rule N → Option Kind → List Char → Remnant
  | .nothing, _, cs => some (none, cs)
  | .never, _, _ => none
  | .lexeme k s, _, cs =>
    (s (Lexeme.skip cs)).map fun n => (some k, (Lexeme.skip cs).drop n)
  | .glued k s, _, cs => (s cs).map fun n => (some k, cs.drop n)
  | .where_ test, _, cs => if test cs then some (none, cs) else none
  | .then_ a b, left, cs =>
    match scan enter a left cs with
    | none => none
    | some (k, r) => (scan enter b left r).map fun x => (x.1.or k, x.2)
  | .or_ a b, left, cs => (scan enter a left cs).or (scan enter b left cs)
  | .many a, left, cs => some (scanMany (scan enter a left) (cs.length + 1) cs)
  | .node t a, left, cs => (scan enter a left cs).map fun x => (some (.named t), x.2)
  | .role _ a, left, cs => scan enter a left cs
  | .grow a s, left, cs =>
    (scan enter a left cs).map fun x => scanGrow (scan enter s) (x.2.length + 1) x.1 x.2
  | .around t _ a, left, cs => (scan enter a left cs).map fun x => (some (.named t), x.2)
  | .after test, left, cs =>
    match left with
    | some (.named t) => if test t then some (none, cs) else none
    | _ => none
  | .unless a, left, cs => if (scan enter a left cs).isSome then none else some (none, cs)
  | .ahead a, left, cs => (scan enter a left cs).map fun _ => (none, cs)
  | .form x, _, cs => enter x cs

end Rule

/-- Scans a form of a grammar, with fuel for the forms that are entered. -/
def Grammar.scan (g : Grammar N) : Nat → N → List Char → Remnant
  | 0, _, _ => none
  | n + 1, x, cs => (g x).scan (scan g n) none cs

/-! ## What it takes to scan a rule -/

namespace Rule

variable {enter : N → List Char → Remnant} {a b : Rule N} {left k : Option Kind}
  {cs r : List Char}

theorem scan_where_some {test : List Char → Bool}
    (h : (where_ test).scan enter left cs = some (k, r)) : r = cs := by
  unfold scan at h
  split at h
  · exact (Prod.mk.inj (Option.some.inj h)).2.symm
  · cases h

theorem scan_then_some (h : (then_ a b).scan enter left cs = some (k, r)) :
    ∃ l m r', a.scan enter left cs = some (l, r') ∧ b.scan enter left r' = some (m, r) := by
  unfold scan at h
  split at h
  · cases h
  · next l r' hfirst =>
    obtain ⟨⟨m, _⟩, hsecond, hr⟩ := Option.map_eq_some_iff.mp h
    obtain ⟨-, rfl⟩ := Prod.mk.inj hr
    exact ⟨l, m, r', hfirst, hsecond⟩

theorem scan_or_some (h : (or_ a b).scan enter left cs = some (k, r)) :
    a.scan enter left cs = some (k, r) ∨ b.scan enter left cs = some (k, r) :=
  (Option.or_eq_some_iff.mp h).imp_right And.right

theorem scan_many_some (h : (many a).scan enter left cs = some (k, r)) :
    r = (scanMany (a.scan enter left) (cs.length + 1) cs).2 :=
  (congrArg Prod.snd (Option.some.inj h)).symm

theorem scan_node_some {t : NodeType} (h : (node t a).scan enter left cs = some (k, r)) :
    ∃ l, a.scan enter left cs = some (l, r) := by
  obtain ⟨⟨l, _⟩, hinner, hr⟩ := Option.map_eq_some_iff.mp h
  obtain ⟨-, rfl⟩ := Prod.mk.inj hr
  exact ⟨l, hinner⟩

theorem scan_grow_some (h : (grow a b).scan enter left cs = some (k, r)) :
    ∃ l r', a.scan enter left cs = some (l, r') ∧
      r = (scanGrow (b.scan enter) (r'.length + 1) l r').2 := by
  obtain ⟨⟨l, r'⟩, hbase, hr⟩ := Option.map_eq_some_iff.mp h
  exact ⟨l, r', hbase, (congrArg Prod.snd hr).symm⟩

theorem scan_around_some {t : NodeType} {f : Option Field}
    (h : (around t f a).scan enter left cs = some (k, r)) :
    ∃ l, a.scan enter left cs = some (l, r) :=
  scan_node_some h

theorem scan_after_some {test : NodeType → Bool}
    (h : (after test : Rule N).scan enter left cs = some (k, r)) : r = cs := by
  unfold scan at h
  split at h
  · split at h
    · exact (Prod.mk.inj (Option.some.inj h)).2.symm
    · cases h
  · cases h

theorem scan_unless_some (h : («unless» a).scan enter left cs = some (k, r)) : r = cs := by
  unfold scan at h
  split at h
  · cases h
  · exact (Prod.mk.inj (Option.some.inj h)).2.symm

theorem scan_ahead_some (h : (ahead a).scan enter left cs = some (k, r)) :
    r = cs ∧ ∃ x, a.scan enter left cs = some x := by
  obtain ⟨x, hinner, hr⟩ := Option.map_eq_some_iff.mp h
  exact ⟨(Prod.mk.inj hr).2.symm, x, hinner⟩

end Rule

/-! ## Gaps -/

namespace Lexeme

variable {cs : List Char} {n m : Nat}

theorem drop_run (p : Char → Bool) (cs : List Char) : cs.drop (run p cs) = cs.dropWhile p := by
  induction cs with
  | nil => rfl
  | cons c r ih =>
    by_cases hc : p c = true
    · simp [run, hc, ih]
    · simp [run, hc]

/-- A comment opens with a slash and another character. -/
theorem lt_of_comment (h : comment cs = some n) : 0 < n ∧ 0 < cs.length := by
  unfold comment at h
  split at h
  · simp only [Option.some.injEq] at h
    exact ⟨by omega, by simp⟩
  · obtain ⟨k, -, rfl⟩ := Option.map_eq_some_iff.mp h
    exact ⟨by omega, by simp⟩
  · cases h

/-- What is left behind a comment is shorter. -/
theorem length_drop_comment (h : comment (cs.dropWhile isGap) = some n) :
    ((cs.dropWhile isGap).drop n).length < cs.length := by
  have hle := (List.dropWhile_sublist isGap (l := cs)).length_le
  have hpos := lt_of_comment h
  rw [List.length_drop]
  omega

theorem afterGaps_succ (n : Nat) (cs : List Char) :
    afterGaps (n + 1) cs = ((comment (cs.dropWhile isGap)).map fun k =>
      afterGaps n ((cs.dropWhile isGap).drop k)).getD (cs.dropWhile isGap) := by
  rw [afterGaps]
  cases comment (cs.dropWhile isGap) with
  | none => rfl
  | some k => rfl

theorem length_afterGaps_le (n : Nat) (cs : List Char) : (afterGaps n cs).length ≤ cs.length := by
  induction n generalizing cs with
  | zero => exact Nat.le_refl _
  | succ n ih =>
    rw [afterGaps_succ]
    cases hcomment : comment (cs.dropWhile isGap) with
    | none => exact (List.dropWhile_sublist isGap).length_le
    | some k => exact Nat.le_of_lt (Nat.lt_of_le_of_lt (ih _) (length_drop_comment hcomment))

theorem length_skip_le (cs : List Char) : (skip cs).length ≤ cs.length :=
  length_afterGaps_le _ cs

/-- There are fewer comments than characters. -/
theorem afterGaps_eq (hn : cs.length < n) (hm : cs.length < m) :
    afterGaps n cs = afterGaps m cs := by
  induction n generalizing m cs with
  | zero => omega
  | succ n ih =>
    cases m with
    | zero => omega
    | succ m =>
      rw [afterGaps_succ, afterGaps_succ]
      cases hcomment : comment (cs.dropWhile isGap) with
      | none => rfl
      | some k =>
        have hlt := length_drop_comment hcomment
        exact ih (by omega) (by omega)

end Lexeme

namespace Place

variable {cs : List Char} {p q : Place}

/-- A place in a given text that knows how long the text is. -/
structure In (cs : List Char) (p : Place) : Prop where
  on : p.On cs
  total : p.total = bytes cs

theorem in_start (cs : List Char) : (Place.start cs).In cs :=
  ⟨on_start cs, rfl⟩

theorem In.advance (h : p.In cs) (n : Nat) : (p.advance n).In cs :=
  ⟨h.on.advance n, h.total⟩

theorem In.reached (h : p.In cs) (m : Nat) : (p.reached m).In cs :=
  ⟨h.on, h.total⟩

/-- The bytes before a place and those behind it. -/
theorem In.pos_add (h : p.In cs) : p.pos + bytes p.rest = p.total := by
  obtain ⟨a, ha, hpos⟩ := h.on
  rw [h.total, ha, bytes_append, hpos]

theorem length_le_bytes (cs : List Char) : cs.length ≤ bytes cs := by
  induction cs with
  | nil => exact Nat.le_refl _
  | cons c cs ih =>
    have hc := c.utf8Size_pos
    rw [bytes_cons, List.length_cons]
    omega

theorem In.length_lt_room (h : p.In cs) : p.rest.length < p.room := by
  have hpos := h.pos_add
  have hle := length_le_bytes p.rest
  unfold room
  omega

/-- A place moves on exactly if the text that is left gets shorter. -/
theorem In.pos_le_iff (hp : p.In cs) (hq : q.In cs) :
    q.pos ≤ p.pos ↔ ¬q.rest.length < p.rest.length := by
  obtain ⟨a, ha, hpos⟩ := hp.on
  obtain ⟨b, hb, hpos'⟩ := hq.on
  rw [hpos, hpos']
  constructor
  · intro hle
    obtain ⟨e, -, hrest⟩ := exists_append_of_bytes_le (hb.symm.trans ha) hle
    simp [hrest]
  · intro hlen
    rcases Nat.le_total (bytes b) (bytes a) with hle | hle
    · exact hle
    · obtain ⟨e, he, hrest⟩ := exists_append_of_bytes_le (ha.symm.trans hb) hle
      rw [hrest, List.length_append] at hlen
      obtain rfl : e = [] := List.eq_nil_of_length_eq_zero (by omega)
      rw [he, List.append_nil]

/-- Behind the gaps at a place. -/
theorem In.skipGaps (h : p.In cs) :
    (p.skipGaps p.room).2.In cs ∧
      (p.skipGaps p.room).2.rest = Lexeme.skip p.rest := by
  have hskip : ∀ n (p : Place), p.In cs → p.rest.length < n →
      (p.skipGaps n).2.In cs ∧ (p.skipGaps n).2.rest = Lexeme.afterGaps n p.rest := by
    intro n
    induction n with
    | zero =>
      intro p _ hlt
      omega
    | succ n ih =>
      intro p hp hlt
      have hgap := hp.advance (Lexeme.run Lexeme.isGap p.rest)
      have hrest : (p.advance (Lexeme.run Lexeme.isGap p.rest)).rest =
          p.rest.dropWhile Lexeme.isGap :=
        Lexeme.drop_run _ _
      rw [Place.skipGaps, Lexeme.afterGaps_succ]
      dsimp only
      rw [hrest]
      cases hcomment : Lexeme.comment (p.rest.dropWhile Lexeme.isGap) with
      | none => exact ⟨hgap, hrest⟩
      | some k =>
        have hshort := Lexeme.length_drop_comment hcomment
        have hbehind : ((p.advance (Lexeme.run Lexeme.isGap p.rest)).advance k).rest =
            (p.rest.dropWhile Lexeme.isGap).drop k := by
          rw [Place.advance, hrest]
        obtain ⟨hin, hafter⟩ := ih _ (hgap.advance k) (by rw [hbehind]; omega)
        rw [hbehind] at hafter
        exact ⟨hin, hafter⟩
  obtain ⟨hin, hrest⟩ := hskip p.room p h h.length_lt_room
  exact ⟨hin, hrest.trans (Lexeme.afterGaps_eq h.length_lt_room (Nat.lt_succ_self _))⟩

end Place

/-! ## Reading tells what scanning tells -/

variable {cs : List Char} {ns left : List Node} {p q : Place}

/-- The kind of the last node. -/
def lastKind (ns : List Node) : Option Kind :=
  ns.getLast?.map Node.kind

/-- Reading and scanning fail together and leave the same text. -/
inductive Told (cs : List Char) : Reading → Remnant → Prop
  | failed (m : Nat) : Told cs (.error m) none
  | behind {ns : List Node} {q : Place} {k : Option Kind} {r : List Char} (place : q.In cs)
      (kind : lastKind ns = k) (rest : q.rest = r) : Told cs (.ok (ns, q)) (some (k, r))

theorem lastKind_append (ns ms : List Node) :
    lastKind (ns ++ ms) = (lastKind ms).or (lastKind ns) := by
  unfold lastKind
  rw [List.getLast?_append, Option.map_or]

theorem lastKind_enclose (t : NodeType) (pos : Nat) (ns : List Node) :
    lastKind (Rule.enclose t pos ns) = some (.named t) := by
  unfold lastKind Rule.enclose
  simp [Node.kind]

theorem lastKind_assign (f : Field) (ns : List Node) :
    lastKind (Rule.assign f ns) = lastKind ns := by
  unfold lastKind Rule.assign
  rw [List.getLast?_map, Option.map_map]
  exact Option.map_congr fun n _ => Rule.kind_assigned f n

/-- What is told of a first part, and behind it of a second, is told of both. -/
theorem Told.chain {x x' : Reading} {y y' : Remnant} {f : List Node → Place → Reading}
    {g : Option Kind → List Char → Remnant}
    (hx : x' = match x with | .error m => .error m | .ok (ns, q) => f ns q)
    (hy : y' = match y with | none => none | some (k, r) => g k r) (h : Told cs x y)
    (hf : ∀ ns q, q.In cs → Told cs (f ns q) (g (lastKind ns) q.rest)) : Told cs x' y' := by
  subst hx hy
  cases h with
  | failed m => exact .failed m
  | @behind ns q _ _ hq hk hr =>
    subst hk hr
    exact hf ns q hq

/-- What is told of a part is told of a whole that fails only with that part. -/
theorem Told.map {x x' : Reading} {y : Remnant} {f : List Node → Place → List Node × Place}
    {g : Option Kind × List Char → Option Kind × List Char}
    (hx : x' = match x with | .error m => .error m | .ok (ns, q) => .ok (f ns q))
    (h : Told cs x y)
    (hf : ∀ ns q, q.In cs → Told cs (.ok (f ns q)) (some (g (lastKind ns, q.rest)))) :
    Told cs x' (y.map g) := by
  subst hx
  cases h with
  | failed m => exact .failed m
  | @behind ns q _ _ hq hk hr =>
    subst hk hr
    exact hf ns q hq

namespace Rule

theorem told_readLexeme (k : Kind) (s : Scan) (hp : p.In cs) :
    Told cs (readLexeme k s p) ((s p.rest).map fun n => (some k, p.rest.drop n)) := by
  unfold readLexeme
  cases hs : s p.rest with
  | none => exact .failed _
  | some n => exact .behind (hp.advance n) rfl rfl

theorem told_readMany {read : Place → Reading} {scan : List Char → Remnant}
    (h : ∀ p, p.In cs → Told cs (read p) (scan p.rest)) {n m : Nat} (hp : p.In cs)
    (hn : p.rest.length < n) (hm : p.rest.length < m) :
    Told cs (.ok (readMany read n p)) (some (scanMany scan m p.rest)) := by
  induction n generalizing p m with
  | zero => omega
  | succ n ih =>
    cases m with
    | zero => omega
    | succ m =>
      have hturn := h p hp
      unfold readMany scanMany
      generalize read p = x, scan p.rest = y at hturn ⊢
      cases hturn with
      | failed m => exact .behind (hp.reached m) rfl rfl
      | @behind ns q _ _ hq hk hr =>
        subst hk hr
        dsimp only
        by_cases hmoved : q.rest.length < p.rest.length
        · have hmore := ih hq (m := m) (by omega) (by omega)
          rw [if_neg (by rw [hp.pos_le_iff hq]; exact not_not_intro hmoved), if_pos hmoved]
          generalize readMany read n q = x, scanMany scan m q.rest = y at hmore ⊢
          cases hmore with
          | behind hr hk hrest =>
            exact .behind hr (by rw [lastKind_append, hk]) hrest
        · rw [if_pos ((hp.pos_le_iff hq).mpr hmoved), if_neg hmoved]
          exact .behind (hp.reached _) rfl rfl

theorem told_readGrow {step : List Node → Place → Reading}
    {scan : Option Kind → List Char → Remnant}
    (h : ∀ left p, p.In cs → Told cs (step left p) (scan (lastKind left) p.rest)) {n m : Nat}
    (hp : p.In cs) (hn : p.rest.length < n) (hm : p.rest.length < m) :
    Told cs (.ok (readGrow step n left p)) (some (scanGrow scan m (lastKind left) p.rest)) := by
  induction n generalizing left p m with
  | zero => omega
  | succ n ih =>
    cases m with
    | zero => omega
    | succ m =>
      have hturn := h left p hp
      unfold readGrow scanGrow
      generalize step left p = x, scan (lastKind left) p.rest = y at hturn ⊢
      cases hturn with
      | failed m => exact .behind (hp.reached m) rfl rfl
      | @behind ns q _ _ hq hk hr =>
        subst hk hr
        dsimp only
        by_cases hmoved : q.rest.length < p.rest.length
        · rw [if_neg (by rw [hp.pos_le_iff hq]; exact not_not_intro hmoved), if_pos hmoved]
          exact ih hq (by omega) (by omega)
        · rw [if_pos ((hp.pos_le_iff hq).mpr hmoved), if_neg hmoved]
          exact .behind (hp.reached _) rfl rfl

/-- Reading a rule at a place tells what scanning the text from there tells, if that holds
of the forms that the rule refers to. -/
theorem told_read {enter : N → Place → Reading} {scanForm : N → List Char → Remnant}
    (henter : ∀ x p, p.In cs → Told cs (enter x p) (scanForm x p.rest)) (r : Rule N)
    (left : List Node) (hp : p.In cs) :
    Told cs (r.read enter left p) (r.scan scanForm (lastKind left) p.rest) := by
  induction r generalizing left p with
  | nothing => exact .behind hp rfl rfl
  | never => exact .failed _
  | lexeme k s =>
    obtain ⟨hin, hrest⟩ := hp.skipGaps
    unfold read readLexeme scan
    dsimp only
    rw [hrest]
    cases s (Lexeme.skip p.rest) with
    | none => exact .failed _
    | some n =>
      refine .behind (hin.advance n) (lastKind_append _ _) ?_
      rw [Place.advance, hrest]
  | glued k s => exact told_readLexeme k s hp
  | where_ test =>
    unfold read scan
    by_cases htest : test p.rest = true
    · rw [if_pos htest, if_pos htest]
      exact .behind hp rfl rfl
    · rw [if_neg htest, if_neg htest]
      exact .failed _
  | then_ a b iha ihb =>
    refine (iha left hp).chain rfl rfl fun ns q hq => ?_
    exact (ihb left hq).map rfl fun ms r hr => .behind hr (lastKind_append ns ms) rfl
  | or_ a b iha ihb =>
    have ha := iha left hp
    unfold read scan
    generalize a.read enter left p = x, a.scan scanForm (lastKind left) p.rest = y at ha ⊢
    cases ha with
    | failed m => exact ihb left (hp.reached m)
    | behind hq hk hr => exact .behind hq hk hr
  | many a iha =>
    unfold read scan
    exact told_readMany (fun q hq => iha left hq) hp hp.length_lt_room (Nat.lt_succ_self _)
  | node t a iha =>
    exact (iha left hp).map rfl fun ns q hq => .behind hq (lastKind_enclose t p.pos ns) rfl
  | role f a iha =>
    have ha := iha left hp
    unfold read scan
    generalize a.read enter left p = x, a.scan scanForm (lastKind left) p.rest = y at ha ⊢
    cases ha with
    | failed m => exact .failed m
    | behind hq hk hr => exact .behind hq ((lastKind_assign _ _).trans hk) hr
  | grow a s iha ihs =>
    refine (iha left hp).map rfl fun ns q hq => ?_
    exact told_readGrow (fun left p hp => ihs left hp) hq hq.length_lt_room (Nat.lt_succ_self _)
  | around t f a iha =>
    exact (iha left hp).map rfl fun ns q hq => .behind hq (lastKind_enclose t p.pos _) rfl
  | after test =>
    unfold read scan lastKind
    generalize left.getLast?.map Node.kind = k
    rcases k with _ | kind
    · exact .failed _
    · cases kind with
      | named t =>
        dsimp only
        by_cases htest : test t = true
        · rw [if_pos htest, if_pos htest]
          exact .behind hp rfl rfl
        · rw [if_neg htest, if_neg htest]
          exact .failed _
      | _ => exact .failed _
  | «unless» a iha =>
    have ha := iha left hp
    unfold read scan
    generalize a.read enter left p = x, a.scan scanForm (lastKind left) p.rest = y at ha ⊢
    cases ha with
    | failed m => exact .behind hp rfl rfl
    | behind hq hk hr => exact .failed _
  | ahead a iha =>
    have ha := iha left hp
    unfold read scan
    generalize a.read enter left p = x, a.scan scanForm (lastKind left) p.rest = y at ha ⊢
    cases ha with
    | failed m => exact .failed m
    | behind hq hk hr => exact .behind hp rfl rfl
  | form x => exact henter x p hp

end Rule

/-- Reading a form of a grammar tells what scanning tells with as much fuel. -/
theorem Grammar.told_read (g : Grammar N) (n : Nat) (x : N) (hp : p.In cs) :
    Told cs (g.read n x p) (g.scan n x p.rest) := by
  induction n generalizing x p with
  | zero => exact .failed _
  | succ n ih => exact Rule.told_read (fun x p hp => ih x hp) (g x) [] hp

end Retarget.Syntax
