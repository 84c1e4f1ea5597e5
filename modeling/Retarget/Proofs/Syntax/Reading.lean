import Mathlib.Data.List.TakeWhile
import Retarget.Proofs.Syntax.Inversion
import Retarget.Proofs.Syntax.Placed

/-!
# Where reading puts nodes

What a rule reads stands one behind the other between the place where reading began and
the place where it ended.  This holds of a rule by its shape: a part that was grown so
far is taken up once, by the node that grows around it (`Rule.isStep`), and nowhere else
(`Rule.isPlain`).  `read_spec` proves it for rules, given that it holds of the forms that
they refer to, and `Grammar.read_spec` for grammars of such rules.
-/

namespace Retarget.Syntax

open Place (bytes)
open Node (Row Placed)

variable {N : Type}

namespace Rule

/-- A rule that reads lexemes only, and no strings. -/
def isFlat : Rule N → Bool
  | nothing => true
  | never => true
  | where_ _ => true
  | lexeme k _ => k ≠ .named .string
  | glued k _ => k ≠ .named .string
  | then_ a b => a.isFlat && b.isFlat
  | or_ a b => a.isFlat && b.isFlat
  | many a => a.isFlat
  | _ => false

/-- A rule that reads no nodes and moves nowhere. -/
def isCheck : Rule N → Bool
  | where_ _ => true
  | after _ => true
  | _ => false

mutual

/-- A rule that does not take up the part grown so far. -/
def isPlain : Rule N → Bool
  | lexeme k _ => k ≠ .named .comment
  | glued k _ => k ≠ .named .comment
  | then_ a b => a.isPlain && b.isPlain
  | or_ a b => a.isPlain && b.isPlain
  | many a => a.isPlain
  | node t a => t ≠ .comment && a.isPlain && (t ≠ .string || a.isFlat)
  | role _ a => a.isPlain
  | grow base step => base.isPlain && step.isStep
  | around _ _ _ => false
  | _ => true

/-- A rule that puts one node around the part grown so far. -/
def isStep : Rule N → Bool
  | never => true
  | or_ a b => a.isStep && b.isStep
  | then_ a b => a.isCheck && b.isStep
  | around t _ a => t ≠ .comment && t ≠ .string && a.isPlain
  | _ => false

end

end Rule

/-! ## Places in a text -/

namespace Place

/-- A place in a given text. -/
def On (cs : List Char) (p : Place) : Prop :=
  ∃ a, cs = a ++ p.rest ∧ p.pos = bytes a

variable {cs : List Char} {p q : Place}

theorem On.cut (h : p.On cs) : Cut cs p.pos := by
  obtain ⟨a, ha, hpos⟩ := h
  exact ⟨a, p.rest, ha, hpos.symm⟩

theorem on_start (cs : List Char) : (Place.start cs).On cs :=
  ⟨[], rfl, rfl⟩

theorem On.advance (h : p.On cs) (n : Nat) : (p.advance n).On cs := by
  obtain ⟨a, ha, hpos⟩ := h
  refine ⟨a ++ p.rest.take n, ?_, ?_⟩
  · rw [ha, Place.advance, List.append_assoc, List.take_append_drop]
  · rw [Place.advance, bytes_append, hpos]

theorem On.reached (h : p.On cs) (m : Nat) : (p.reached m).On cs :=
  h

theorem pos_le_advance (p : Place) (n : Nat) : p.pos ≤ (p.advance n).pos :=
  Nat.le_add_right _ _

/-- A node without children between two places. -/
theorem placed_leaf (hp : p.On cs) (hq : q.On cs) (hle : p.pos ≤ q.pos) (k : Kind) :
    (Node.mk k none p.pos q.pos []).Placed cs := by
  refine ⟨hp.cut, hq.cut, hle, hle, ?_⟩
  intro _ n hn
  cases hn

/-- What stands in a gap. -/
theorem skipGaps_spec (n : Nat) (h : p.On cs) :
    (p.skipGaps n).2.On cs ∧ Row cs p.pos (p.skipGaps n).1 (p.skipGaps n).2.pos := by
  induction n generalizing p with
  | zero => exact ⟨h, Nat.le_refl _⟩
  | succ n ih =>
    have hgap := h.advance (Lexeme.run Lexeme.isGap p.rest)
    have hle := pos_le_advance p (Lexeme.run Lexeme.isGap p.rest)
    rw [skipGaps]
    split
    · exact ⟨hgap, hle⟩
    · next k _ =>
      generalize p.advance (Lexeme.run Lexeme.isGap p.rest) = q at hgap hle
      obtain ⟨hon, hrow⟩ := ih (hgap.advance k)
      have hplaced := placed_leaf hgap (hgap.advance k) (pos_le_advance q k) (.named .comment)
      exact ⟨hon, hle, hplaced, hrow⟩

theorem comment_of_mem_skipGaps (n : Nat) (p : Place) :
    ∀ x ∈ (p.skipGaps n).1, x.kind = .named .comment ∧ x.children = [] := by
  induction n generalizing p with
  | zero =>
    intro x hx
    cases hx
  | succ n ih =>
    rw [skipGaps]
    split
    · intro x hx
      cases hx
    · intro x hx
      rcases List.mem_cons.mp hx with rfl | hx
      · exact ⟨rfl, rfl⟩
      · exact ih _ x hx

end Place

/-! ## Putting nodes together -/

variable {cs : List Char} {ns ms left : List Node} {n : Node} {lo hi pos : Nat} {t : NodeType}
  {p q : Place}

/-- Where there are nodes, some node is no comment. -/
def Full (ns : List Node) : Prop :=
  ns = [] ∨ ∃ n ∈ ns, n.kind ≠ .named .comment

theorem Full.append (h : Full ns) (h' : Full ms) : Full (ns ++ ms) := by
  rcases h with rfl | ⟨n, hn, hkind⟩
  · exact h'
  · exact .inr ⟨n, List.mem_append_left _ hn, hkind⟩

/-- The last of a row of nodes. -/
theorem row_getLast (h : Row cs lo ns hi) (hne : ns ≠ []) :
    Row cs lo ns (ns.getLast hne).stop ∧ (ns.getLast hne).Placed cs ∧
      (ns.getLast hne).stop ≤ hi := by
  have hsplit := List.dropLast_concat_getLast hne
  generalize ns.getLast hne = last at hsplit
  rw [← hsplit] at h ⊢
  obtain ⟨hinit, hlast, hhi⟩ := Node.row_split h
  exact ⟨Node.row_append hinit ⟨Nat.le_refl _, hlast, Nat.le_refl _⟩, hlast, hhi⟩

/-- One node over a row of nodes. -/
theorem row_enclose (h : Row cs lo ns hi) (hfull : Full ns)
    (hpos : Cut cs pos ∧ lo ≤ pos ∧ pos ≤ hi)
    (hflat : t = .string → ∀ n ∈ ns, n.children = [] ∧ n.kind ≠ .named .string) :
    Row cs lo (Rule.enclose t pos ns) hi := by
  have hsplit : ns.takeWhile (·.is .comment) ++ ns.dropWhile (·.is .comment) = ns :=
    List.takeWhile_append_dropWhile
  unfold Rule.enclose Rule.splitComments
  dsimp only
  cases hinner : ns.dropWhile (·.is .comment) with
  | nil =>
    -- there was nothing to put a node over
    obtain rfl : ns = [] := by
      rcases hfull with hnil | ⟨n, hn, hkind⟩
      · exact hnil
      · have hall := List.dropWhile_eq_nil_iff.mp hinner n hn
        exact absurd (by simpa [Node.is] using hall) hkind
    obtain ⟨hcut, hlo, hhi⟩ := hpos
    refine ⟨hlo, ⟨hcut, hcut, Nat.le_refl _, Nat.le_refl _, ?_⟩, hhi⟩
    intro _ n hn
    cases hn
  | cons c rest =>
    rw [hinner] at hsplit
    rw [← hsplit] at h
    obtain ⟨hbefore, hc, hrest⟩ := Node.row_split h
    have hrow : Row cs c.start (c :: rest) hi := ⟨Nat.le_refl _, hc, hrest⟩
    obtain ⟨hlast, hplaced, hle⟩ := row_getLast hrow (List.cons_ne_nil c rest)
    refine Node.row_append hbefore ⟨?_, ⟨?_, ?_, ?_, ?_, ?_⟩, ?_⟩
    · simp [Node.start]
    · simpa using hc.start_cut
    · simpa [List.getLast?_eq_some_getLast] using hplaced.stop_cut
    · simpa [List.getLast?_eq_some_getLast] using Node.row_le hlast
    · simpa [List.getLast?_eq_some_getLast] using hlast
    · intro hstring n hn
      refine hflat (Kind.named.inj hstring) n ?_
      rw [← hsplit]
      exact List.mem_append_right _ hn
    · simpa [List.getLast?_eq_some_getLast, Node.stop, Row] using hle

theorem full_enclose (ht : t ≠ .comment) (pos : Nat) (ns : List Node) :
    Full (Rule.enclose t pos ns) := by
  refine .inr ⟨_, List.mem_append_right _ (List.mem_singleton.mpr rfl), ?_⟩
  simpa [Node.kind] using ht

theorem row_assign (h : Row cs lo ns hi) (f : Field) : Row cs lo (Rule.assign f ns) hi := by
  refine Node.row_map h fun n => ?_
  split
  · exact ⟨rfl, rfl, id⟩
  · obtain ⟨k, g, a, b, ms⟩ := n
    exact ⟨rfl, rfl, fun h => h.withField f⟩

theorem full_assign (h : Full ns) (f : Field) : Full (Rule.assign f ns) := by
  rcases h with rfl | ⟨n, hn, hkind⟩
  · exact .inl rfl
  · refine .inr ⟨n.withField f, List.mem_map.mpr ⟨n, hn, ?_⟩, ?_⟩
    · simp [Node.is, hkind]
    · obtain ⟨k, g, a, b, ms⟩ := n
      exact hkind

/-! ## Reading -/

/-- What reading gives: nodes in a row up to the place behind them. -/
structure Reads (cs : List Char) (lo : Nat) (ns : List Node) (q : Place) : Prop where
  on : q.On cs
  row : Row cs lo ns q.pos
  full : Full ns

theorem Reads.le (h : Reads cs lo ns q) : lo ≤ q.pos :=
  Node.row_le h.row

theorem reads_nil (hp : p.On cs) : Reads cs p.pos [] p :=
  ⟨hp, Nat.le_refl _, .inl rfl⟩

theorem Reads.reached (h : Reads cs lo ns q) (m : Nat) : Reads cs lo ns (q.reached m) :=
  ⟨h.on.reached m, h.row, h.full⟩

theorem Reads.append {r : Place} (h : Reads cs lo ns q) (h' : Reads cs q.pos ms r) :
    Reads cs lo (ns ++ ms) r :=
  ⟨h'.on, Node.row_append h.row h'.row, h.full.append h'.full⟩

/-- Reading forms puts nodes in a row. -/
def Sound (cs : List Char) (enter : N → Place → Reading) : Prop :=
  ∀ x p ns q, p.On cs → enter x p = .ok (ns, q) → Reads cs p.pos ns q

namespace Rule

/-! ## Where rules put nodes -/

theorem reads_lexeme {k : Kind} (hk : k ≠ .named .comment) (scan : Scan) (hp : p.On cs)
    (h : readLexeme k scan p = .ok (ns, q)) : Reads cs p.pos ns q := by
  obtain ⟨n, -, rfl, rfl⟩ := readLexeme_ok h
  have hle := Place.pos_le_advance p n
  refine ⟨hp.advance n, ⟨Nat.le_refl _, ?_, Nat.le_refl _⟩, ?_⟩
  · exact Place.placed_leaf hp (hp.advance n) hle k
  · exact .inr ⟨_, List.mem_cons_self, hk⟩

/-- A leaf that is no string. -/
def IsPiece (n : Node) : Prop :=
  n.children = [] ∧ n.kind ≠ .named .string

theorem pieces_of_readLexeme {k : Kind} (hk : k ≠ .named .string) {scan : Scan}
    (h : readLexeme k scan p = .ok (ns, q)) : ∀ n ∈ ns, IsPiece n := by
  obtain ⟨-, -, -, rfl⟩ := readLexeme_ok h
  intro n hn
  rw [List.mem_singleton.mp hn]
  exact ⟨rfl, hk⟩

/-- Flat rules read leaves that are no strings. -/
theorem pieces_of_isFlat {enter : N → Place → Reading} {r : Rule N} (hr : r.isFlat = true)
    (h : r.read enter left p = .ok (ns, q)) : ∀ n ∈ ns, IsPiece n := by
  induction r generalizing p ns q with
  | nothing =>
    obtain ⟨rfl, -⟩ := Prod.mk.inj (Except.ok.inj h)
    intro n hn
    cases hn
  | never => cases h
  | where_ test =>
    rw [read] at h
    split at h
    · obtain ⟨rfl, -⟩ := Prod.mk.inj (Except.ok.inj h)
      intro n hn
      cases hn
    · cases h
  | lexeme k scan =>
    have hk : k ≠ .named .string := by simpa [isFlat] using hr
    obtain ⟨ms, hread, rfl⟩ := read_lexeme_ok h
    intro n hn
    rcases List.mem_append.mp hn with hn | hn
    · obtain ⟨hkind, hleaf⟩ := Place.comment_of_mem_skipGaps _ _ n hn
      exact ⟨hleaf, by simp [hkind]⟩
    · exact pieces_of_readLexeme hk hread n hn
  | glued k scan =>
    have hk : k ≠ .named .string := by simpa [isFlat] using hr
    exact pieces_of_readLexeme hk h
  | then_ a b iha ihb =>
    obtain ⟨ha, hb⟩ : a.isFlat = true ∧ b.isFlat = true := by simpa [isFlat] using hr
    obtain ⟨xs, r, ys, hfirst, hsecond, rfl⟩ := read_then_ok h
    intro n hn
    rcases List.mem_append.mp hn with hn | hn
    · exact iha ha hfirst n hn
    · exact ihb hb hsecond n hn
  | or_ a b iha ihb =>
    obtain ⟨ha, hb⟩ : a.isFlat = true ∧ b.isFlat = true := by simpa [isFlat] using hr
    rcases read_or_ok h with hread | ⟨m, hread⟩
    · exact iha ha hread
    · exact ihb hb hread
  | many a ih =>
    have ha : a.isFlat = true := by simpa [isFlat] using hr
    refine read_many_induction h (P := fun _ ns _ => ∀ n ∈ ns, IsPiece n) ?_ ?_
    · intro p m n hn
      cases hn
    · intro p ns q ms r hread hmore n hn
      exact (List.mem_append.mp hn).elim (ih ha hread n) (hmore n)
  | _ => simp [isFlat] at hr

theorem eq_of_isCheck {enter : N → Place → Reading} {r : Rule N} (hr : r.isCheck = true)
    (h : r.read enter left p = .ok (ns, q)) : ns = [] ∧ q = p := by
  cases r with
  | where_ test =>
    rw [read] at h
    split at h
    · obtain ⟨rfl, rfl⟩ := Prod.mk.inj (Except.ok.inj h)
      exact ⟨rfl, rfl⟩
    · cases h
  | after test =>
    rw [read] at h
    split at h
    · split at h
      · obtain ⟨rfl, rfl⟩ := Prod.mk.inj (Except.ok.inj h)
        exact ⟨rfl, rfl⟩
      · cases h
    · cases h
  | _ => simp [isCheck] at hr

/-! ## Rules in a row -/

/-- A rule that puts what it reads in a row behind the place where it is read. -/
def Rows (cs : List Char) (enter : N → Place → Reading) (r : Rule N) : Prop :=
  ∀ ⦃left p ns q⦄, p.On cs → r.read enter left p = .ok (ns, q) → Reads cs p.pos ns q

/-- A rule that puts the part grown so far in a row with what it reads. -/
def Absorbs (cs : List Char) (enter : N → Place → Reading) (r : Rule N) : Prop :=
  ∀ ⦃left lo p ns q⦄, Reads cs lo left p → r.read enter left p = .ok (ns, q) → Reads cs lo ns q

variable {enter : N → Place → Reading} {a b : Rule N}

/-- A rule that reads no nodes and moves nowhere. -/
theorem rows_of_idle (h : ∀ ⦃left p ns q⦄, a.read enter left p = .ok (ns, q) → ns = [] ∧ q = p) :
    a.Rows cs enter := by
  intro left p ns q hp hread
  obtain ⟨rfl, rfl⟩ := h hread
  exact reads_nil hp

theorem rows_lexeme {k : Kind} (hk : k ≠ .named .comment) (scan : Scan) :
    (lexeme k scan).Rows cs enter := by
  intro left p ns q hp h
  obtain ⟨ms, hread, rfl⟩ := read_lexeme_ok h
  obtain ⟨hon, hrow⟩ := Place.skipGaps_spec p.room hp
  have hleaf := reads_lexeme hk scan hon hread
  refine ⟨hleaf.on, Node.row_append hrow hleaf.row, ?_⟩
  obtain ⟨-, -, -, rfl⟩ := readLexeme_ok hread
  exact .inr ⟨_, List.mem_append_right _ List.mem_cons_self, hk⟩

theorem Rows.then_ (ha : a.Rows cs enter) (hb : b.Rows cs enter) :
    (then_ a b).Rows cs enter := by
  intro left p ns q hp h
  obtain ⟨xs, r, ys, hfirst, hsecond, rfl⟩ := read_then_ok h
  exact (ha hp hfirst).append (hb (ha hp hfirst).on hsecond)

theorem Rows.or_ (ha : a.Rows cs enter) (hb : b.Rows cs enter) :
    (or_ a b).Rows cs enter := by
  intro left p ns q hp h
  rcases read_or_ok h with hread | ⟨m, hread⟩
  · exact ha hp hread
  · exact hb (p := p.reached m) (hp.reached m) hread

theorem Rows.many (ha : a.Rows cs enter) : (many a).Rows cs enter := by
  intro left p ns q hp h
  refine read_many_induction h (P := fun p ns q => p.On cs → Reads cs p.pos ns q) ?_ ?_ hp
  · intro p m hp
    exact (reads_nil hp).reached m
  · intro p ns q ms r hread hmore hp
    exact (ha hp hread).append (hmore (ha hp hread).on)

theorem Rows.node {t : NodeType} (ht : t ≠ .comment) (hflat : t ≠ .string ∨ a.isFlat = true)
    (ha : a.Rows cs enter) : (node t a).Rows cs enter := by
  intro left p ns q hp h
  obtain ⟨ms, hread, rfl⟩ := read_node_ok h
  have hinner := ha hp hread
  refine ⟨hinner.on, ?_, full_enclose ht _ _⟩
  refine row_enclose hinner.row hinner.full ⟨hp.cut, Nat.le_refl _, hinner.le⟩ ?_
  intro hstring
  exact pieces_of_isFlat (hflat.resolve_left fun hne => hne hstring) hread

theorem Rows.role (ha : a.Rows cs enter) (f : Field) : (role f a).Rows cs enter := by
  intro left p ns q hp h
  obtain ⟨ms, hread, rfl⟩ := read_role_ok h
  have hinner := ha hp hread
  exact ⟨hinner.on, row_assign hinner.row f, full_assign hinner.full f⟩

/-- What comes first stands in a row, and every step keeps it so. -/
theorem Rows.grow (ha : a.Rows cs enter) (hb : b.Absorbs cs enter) :
    (grow a b).Rows cs enter := by
  intro left p ns q hp h
  refine read_grow_induction h (P := Reads cs p.pos) ?_ (fun _ _ m hms => hms.reached m) ?_
  · exact fun ms r hread => ha hp hread
  · exact fun ms r xs s hms hread => hb hms hread

theorem Absorbs.then_ (ha : a.isCheck = true) (hb : b.Absorbs cs enter) :
    (then_ a b).Absorbs cs enter := by
  intro left lo p ns q hleft h
  obtain ⟨xs, r, ys, hfirst, hsecond, rfl⟩ := read_then_ok h
  obtain ⟨rfl, rfl⟩ := eq_of_isCheck ha hfirst
  exact hb hleft hsecond

theorem Absorbs.or_ (ha : a.Absorbs cs enter) (hb : b.Absorbs cs enter) :
    (or_ a b).Absorbs cs enter := by
  intro left lo p ns q hleft h
  rcases read_or_ok h with hread | ⟨m, hread⟩
  · exact ha hleft hread
  · exact hb (hleft.reached m) hread

/-- The part grown so far and what stands behind it get one node around them. -/
theorem absorbs_around {t : NodeType} (ht : t ≠ .comment) (hstring : t ≠ .string)
    (f : Option Field) (ha : a.Rows cs enter) : (around t f a).Absorbs cs enter := by
  intro left lo p ns q hleft h
  obtain ⟨ms, hread, rfl⟩ := read_around_ok h
  have hinner := ha hleft.on hread
  have hring (roles : List Node) (hrow : Row cs lo roles p.pos) (hfull : Full roles) :
      Reads cs lo (enclose t p.pos (roles ++ ms)) q := by
    refine ⟨hinner.on, ?_, full_enclose ht _ _⟩
    refine row_enclose (Node.row_append hrow hinner.row) (hfull.append hinner.full)
      ⟨hleft.on.cut, hleft.le, hinner.le⟩ ?_
    intro h
    exact absurd h hstring
  cases f with
  | some g => exact hring _ (row_assign hleft.row g) (full_assign hleft.full g)
  | none => exact hring _ hleft.row hleft.full

/-- Plain rules put what they read in a row.  Steps put it in a row with the part grown so
far, one node around both. -/
theorem read_spec (henter : Sound cs enter) (r : Rule N) :
    (r.isPlain = true → r.Rows cs enter) ∧ (r.isStep = true → r.Absorbs cs enter) := by
  induction r with
  | nothing =>
    exact ⟨fun _ => rows_of_idle fun _ _ _ _ => read_nothing_ok, fun hr => by simp [isStep] at hr⟩
  | never =>
    constructor
    · intro _ left p ns q _ h
      cases h
    · intro _ left lo p ns q _ h
      cases h
  | lexeme k scan =>
    refine ⟨fun hr => ?_, fun hr => by simp [isStep] at hr⟩
    exact rows_lexeme (by simpa [isPlain] using hr) scan
  | glued k scan =>
    refine ⟨fun hr left p ns q hp h => ?_, fun hr => by simp [isStep] at hr⟩
    exact reads_lexeme (by simpa [isPlain] using hr) scan hp h
  | where_ test =>
    exact ⟨fun _ => rows_of_idle fun _ _ _ _ => eq_of_isCheck rfl, fun hr => by simp [isStep] at hr⟩
  | then_ a b iha ihb =>
    constructor
    · intro hr
      obtain ⟨ha, hb⟩ : a.isPlain = true ∧ b.isPlain = true := by simpa [isPlain] using hr
      exact (iha.1 ha).then_ (ihb.1 hb)
    · intro hr
      obtain ⟨ha, hb⟩ : a.isCheck = true ∧ b.isStep = true := by simpa [isStep] using hr
      exact .then_ ha (ihb.2 hb)
  | or_ a b iha ihb =>
    constructor
    · intro hr
      obtain ⟨ha, hb⟩ : a.isPlain = true ∧ b.isPlain = true := by simpa [isPlain] using hr
      exact (iha.1 ha).or_ (ihb.1 hb)
    · intro hr
      obtain ⟨ha, hb⟩ : a.isStep = true ∧ b.isStep = true := by simpa [isStep] using hr
      exact (iha.2 ha).or_ (ihb.2 hb)
  | many a ih =>
    refine ⟨fun hr => ?_, fun hr => by simp [isStep] at hr⟩
    exact (ih.1 (by simpa [isPlain] using hr)).many
  | node t a ih =>
    refine ⟨fun hr => ?_, fun hr => by simp [isStep] at hr⟩
    obtain ⟨⟨ht, ha⟩, hflat⟩ :
        (t ≠ .comment ∧ a.isPlain = true) ∧ (t ≠ .string ∨ a.isFlat = true) := by
      simpa [isPlain] using hr
    exact (ih.1 ha).node ht hflat
  | role f a ih =>
    refine ⟨fun hr => ?_, fun hr => by simp [isStep] at hr⟩
    exact (ih.1 (by simpa [isPlain] using hr)).role f
  | grow base step ihbase ihstep =>
    refine ⟨fun hr => ?_, fun hr => by simp [isStep] at hr⟩
    obtain ⟨hbase, hstep⟩ : base.isPlain = true ∧ step.isStep = true := by
      simpa [isPlain] using hr
    exact (ihbase.1 hbase).grow (ihstep.2 hstep)
  | around t f a ih =>
    refine ⟨fun hr => by simp [isPlain] at hr, fun hr => ?_⟩
    obtain ⟨⟨ht, hstring⟩, ha⟩ : (t ≠ .comment ∧ t ≠ .string) ∧ a.isPlain = true := by
      simpa [isStep] using hr
    exact absorbs_around ht hstring f (ih.1 ha)
  | after test =>
    exact ⟨fun _ => rows_of_idle fun _ _ _ _ => eq_of_isCheck rfl, fun hr => by simp [isStep] at hr⟩
  | «unless» a _ =>
    exact ⟨fun _ => rows_of_idle fun _ _ _ _ => read_unless_ok, fun hr => by simp [isStep] at hr⟩
  | ahead a _ =>
    exact ⟨fun _ => rows_of_idle fun _ _ _ _ => read_ahead_ok, fun hr => by simp [isStep] at hr⟩
  | form x =>
    exact ⟨fun _ left p ns q hp h => henter x p ns q hp h, fun hr => by simp [isStep] at hr⟩

end Rule

/-- A grammar of plain rules puts what it reads in a row. -/
theorem Grammar.read_spec {g : Grammar N} (hg : ∀ x, (g x).isPlain = true) (n : Nat) :
    Sound cs (g.read n) := by
  induction n with
  | zero =>
    intro x p ns q _ h
    cases h
  | succ n ih =>
    intro x p ns q hp h
    exact (Rule.read_spec ih (g x)).1 (hg x) hp h

end Retarget.Syntax
