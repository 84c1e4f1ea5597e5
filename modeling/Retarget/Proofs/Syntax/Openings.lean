import Retarget.Proofs.Syntax.Ranks

/-!
# What rules open with

A rule does not fit where the text opens with a character that none of its readings opens
with.  `Shut` says so of a rule by its shape: its first lexeme that may not be missing does
not fit there.  `Closed` names the forms that are shut for a set of openings: a form that
opens with a mark is shut for all others, and expressions are shut where a mark closes what
they stand in (`isCloser`).
-/

namespace Retarget.Syntax

variable {N : Type}

/-- A set of characters that a text may open with; none stands for the end of the text. -/
abbrev Heads := Option Char → Bool

/-- A text that opens, behind gaps and comments, with one of the given characters. -/
def Opens (heads : Heads) (cs : List Char) : Prop :=
  heads (Lexeme.skip cs).head? = true

/-- A scan that fits nowhere where one of the given characters is next. -/
def Misses (heads : Heads) (s : Scan) : Prop :=
  ∀ cs : List Char, heads cs.head? = true → s cs = none

namespace Rule

mutual

/-- A rule that does not fit where a text opens with one of the given characters, given the
forms that do not. -/
@[simp]
def Shut (closed : N → Prop) (heads : Heads) : Rule N → Prop
  | nothing => False
  | never => True
  | lexeme _ s => Misses heads s
  | glued _ _ => False
  | where_ _ => False
  | then_ a b => a.Shut closed heads ∨ a.Idle closed heads ∧ b.Shut closed heads
  | or_ a b => a.Shut closed heads ∧ b.Shut closed heads
  | many _ => False
  | node _ a => a.Shut closed heads
  | role _ a => a.Shut closed heads
  | grow a _ => a.Shut closed heads
  | around _ _ a => a.Shut closed heads
  | after _ => False
  | «unless» _ => False
  | ahead a => a.Shut closed heads
  | form x => closed x

/-- A rule that takes nothing where a text opens with one of the given characters. -/
@[simp]
def Idle (closed : N → Prop) (heads : Heads) : Rule N → Prop
  | nothing => True
  | never => True
  | lexeme _ s => Misses heads s
  | glued _ _ => False
  | where_ _ => True
  | then_ a b => a.Shut closed heads ∨ a.Idle closed heads ∧ b.Idle closed heads
  | or_ a b => a.Idle closed heads ∧ b.Idle closed heads
  | many a => a.Idle closed heads
  | node _ a => a.Idle closed heads
  | role _ a => a.Idle closed heads
  | grow a s => a.Shut closed heads ∨ a.Idle closed heads ∧ s.Idle closed heads
  | around _ _ a => a.Idle closed heads
  | after _ => True
  | «unless» _ => True
  | ahead _ => True
  | form x => closed x

end

variable {enter : N → List Char → Remnant} {closed : N → Prop} {heads : Heads} {cs : List Char}

theorem scanMany_idle {scan : List Char → Remnant} (h : ∀ k r, scan cs = some (k, r) → r = cs)
    (n : Nat) : (scanMany scan n cs).2 = cs := by
  cases n with
  | zero => rfl
  | succ n =>
    unfold scanMany
    split
    · rfl
    · next hscan => rw [if_neg (by rw [h _ _ hscan]; exact Nat.lt_irrefl _)]

theorem scanGrow_idle {step : Option Kind → List Char → Remnant} {k : Option Kind}
    (h : ∀ l r, step k cs = some (l, r) → r = cs) (n : Nat) : scanGrow step n k cs = (k, cs) := by
  cases n with
  | zero => rfl
  | succ n =>
    unfold scanGrow
    split
    · rfl
    · next hstep => rw [if_neg (by rw [h _ _ hstep]; exact Nat.lt_irrefl _)]

/-- A rule that fits is not shut, and if it is idle it takes nothing, as long as closed forms
do not fit. -/
theorem scan_spec (hclosed : ∀ x, closed x → ∀ cs, Opens heads cs → enter x cs = none)
    {a : Rule N} (hcs : Opens heads cs) {left k : Option Kind} {r : List Char}
    (h : a.scan enter left cs = some (k, r)) :
    ¬a.Shut closed heads ∧ (a.Idle closed heads → r = cs) := by
  induction a generalizing left cs k r with
  | nothing => exact ⟨id, fun _ => (Prod.mk.inj (Option.some.inj h)).2.symm⟩
  | never => cases h
  | lexeme t s =>
    have hfits : ¬Misses heads s := by
      intro hmiss
      rw [scan, hmiss _ hcs] at h
      cases h
    exact ⟨hfits, fun hmiss => (hfits hmiss).elim⟩
  | glued t s => exact ⟨id, False.elim⟩
  | where_ test => exact ⟨id, fun _ => scan_where_some h⟩
  | then_ a b iha ihb =>
    obtain ⟨l, m, r', hfirst, hsecond⟩ := scan_then_some h
    obtain ⟨hopen, htook⟩ := iha hcs hfirst
    constructor
    · rintro (ha | ⟨ha, hb⟩)
      · exact hopen ha
      · obtain rfl := htook ha
        exact (ihb hcs hsecond).1 hb
    · rintro (ha | ⟨ha, hb⟩)
      · exact (hopen ha).elim
      · obtain rfl := htook ha
        exact (ihb hcs hsecond).2 hb
  | or_ a b iha ihb =>
    rcases scan_or_some h with hfirst | hsecond
    · exact ⟨fun hab => (iha hcs hfirst).1 hab.1, fun hab => (iha hcs hfirst).2 hab.1⟩
    · exact ⟨fun hab => (ihb hcs hsecond).1 hab.2, fun hab => (ihb hcs hsecond).2 hab.2⟩
  | many a iha =>
    obtain rfl := scan_many_some h
    exact ⟨id, fun ha => scanMany_idle (fun k r hr => (iha hcs hr).2 ha) _⟩
  | node t a iha =>
    obtain ⟨l, hinner⟩ := scan_node_some h
    exact iha hcs hinner
  | role f a iha => exact iha hcs h
  | grow a s iha ihs =>
    obtain ⟨l, r', hbase, rfl⟩ := scan_grow_some h
    obtain ⟨hopen, htook⟩ := iha hcs hbase
    refine ⟨hopen, ?_⟩
    rintro (ha | ⟨ha, hs⟩)
    · exact (hopen ha).elim
    · obtain rfl := htook ha
      rw [scanGrow_idle fun l r hr => (ihs hcs hr).2 hs]
  | around t f a iha =>
    obtain ⟨l, hinner⟩ := scan_around_some h
    exact iha hcs hinner
  | after test => exact ⟨id, fun _ => scan_after_some h⟩
  | «unless» a _ => exact ⟨id, fun _ => scan_unless_some h⟩
  | ahead a iha =>
    obtain ⟨rfl, x, hinner⟩ := scan_ahead_some h
    exact ⟨(iha hcs hinner).1, fun _ => rfl⟩
  | form x =>
    have hfits : ¬closed x := by
      intro hx
      rw [scan, hclosed x hx cs hcs] at h
      cases h
    exact ⟨hfits, fun hx => (hfits hx).elim⟩

/-- Less is shut where more characters may be next, and idle as well. -/
theorem shut_mono {closed' : N → Prop} {heads' : Heads} (hclosed : ∀ x, closed x → closed' x)
    (hheads : ∀ o, heads' o = true → heads o = true) (a : Rule N) :
    (a.Shut closed heads → a.Shut closed' heads') ∧ (a.Idle closed heads → a.Idle closed' heads') := by
  have hmisses {s : Scan} (hs : Misses heads s) : Misses heads' s :=
    fun cs hcs => hs cs (hheads _ hcs)
  induction a with
  | nothing => exact ⟨id, id⟩
  | never => exact ⟨id, id⟩
  | lexeme t s => exact ⟨hmisses, hmisses⟩
  | glued t s => exact ⟨id, id⟩
  | where_ test => exact ⟨id, id⟩
  | then_ a b iha ihb =>
    exact ⟨Or.imp iha.1 (And.imp iha.2 ihb.1), Or.imp iha.1 (And.imp iha.2 ihb.2)⟩
  | or_ a b iha ihb => exact ⟨And.imp iha.1 ihb.1, And.imp iha.2 ihb.2⟩
  | many a iha => exact ⟨id, iha.2⟩
  | node t a iha => exact iha
  | role f a iha => exact iha
  | grow a s iha ihs => exact ⟨iha.1, Or.imp iha.1 (And.imp iha.2 ihs.2)⟩
  | around t f a iha => exact iha
  | after test => exact ⟨id, id⟩
  | «unless» a _ => exact ⟨id, id⟩
  | ahead a iha => exact ⟨iha.1, id⟩
  | form x => exact ⟨hclosed x, hclosed x⟩

theorem Shut.scan_eq_none (hclosed : ∀ x, closed x → ∀ cs, Opens heads cs → enter x cs = none)
    {a : Rule N} (ha : a.Shut closed heads) (left : Option Kind) (hcs : Opens heads cs) :
    a.scan enter left cs = none :=
  Option.eq_none_iff_forall_ne_some.mpr fun _ h => (scan_spec hclosed hcs h).1 ha

end Rule

/-- Closed forms do not fit, if each of them is shut by its rule. -/
theorem Grammar.accept_eq_none {g : Grammar N} {closed : N → Prop} {heads : Heads}
    (h : ∀ x, closed x → (g x).Shut closed heads) {x : N} (hx : closed x) {cs : List Char}
    (hcs : Opens heads cs) : g.accept x cs = none := by
  have hscan (n : Nat) : ∀ x, closed x → ∀ cs, Opens heads cs → g.scan n x cs = none := by
    induction n with
    | zero =>
      intro x _ cs _
      rfl
    | succ n ih =>
      intro x hx cs hcs
      exact (h x hx).scan_eq_none ih none hcs
  exact hscan _ x hx cs hcs

/-! ## Scans -/

namespace Lexeme

variable {heads : Heads}

theorem misses_spelled {w : List Char} (hw : w ≠ []) (h : heads w.head? = false) :
    Misses heads (spelled w) := by
  intro cs hcs
  unfold spelled
  split
  · next hbegins =>
    cases w with
    | nil => exact absurd rfl hw
    | cons c w =>
      obtain ⟨r, rfl⟩ := List.isPrefixOf_iff_prefix.mp hbegins
      simp_all
  · rfl

/-- A scan that looks for a given spelling first. -/
theorem misses_of_spelled {w : List Char} {s : Scan} (hw : w ≠ []) (h : heads w.head? = false)
    (hs : ∀ cs n, s cs = some n → spelled w cs = some n) : Misses heads s := by
  intro cs hcs
  cases hscan : s cs with
  | none => rfl
  | some n =>
    have hspelled := hs cs n hscan
    rw [misses_spelled hw h cs hcs] at hspelled
    cases hspelled

theorem misses_keyword {w : List Char} (hw : w ≠ []) (h : heads w.head? = false) :
    Misses heads (keyword w) :=
  misses_of_spelled hw h fun _ _ => spelled_of_keyword

/-- Characters that no word opens with. -/
def Wordless (heads : Heads) : Prop :=
  ∀ c, heads (some c) = true → isWordStart c = false ∧ c ≠ '\\'

theorem misses_word (h : Wordless heads) : Misses heads word := by
  intro cs hcs
  cases cs with
  | nil => rfl
  | cons c r =>
    obtain ⟨hstart, hslash⟩ := h c hcs
    simp [word, hstart, hslash]

theorem misses_wordExcept (h : Wordless heads) (reserved : List (List Char)) :
    Misses heads (wordExcept reserved) := by
  intro cs hcs
  unfold wordExcept
  rw [misses_word h cs hcs]
  rfl

theorem run_of_head {p : Char → Bool} {cs : List Char} (h : ∀ c, cs.head? = some c → p c = false) :
    run p cs = 0 := by
  cases cs with
  | nil => rfl
  | cons c r => simp [run, h c rfl]

theorem digits_of_head {p : Char → Bool} {cs : List Char}
    (h : ∀ c, cs.head? = some c → p c = false) : digits p cs = none := by
  unfold digits
  cases hlen : cs.length with
  | zero => rfl
  | succ n => simp [digitGroups, run_of_head h]

/-- Numbers open with a digit or a point. -/
theorem misses_number (h : ∀ c, heads (some c) = true → c.isDigit = false ∧ c ≠ '.') :
    Misses heads number := by
  intro cs hcs
  have hhead (c : Char) (hc : cs.head? = some c) : c.isDigit = false ∧ c ≠ '.' :=
    h c (hc ▸ hcs)
  have hdigit (c : Char) (hc : cs.head? = some c) : c.isDigit = false := (hhead c hc).1
  have hbased (lower upper : Char) (p : Char → Bool) : based lower upper p cs = none := by
    unfold based
    split
    · exact absurd (hdigit '0' rfl) (by decide)
    · rfl
  have hwhole : decimalWhole cs = none := by
    unfold decimalWhole
    split
    · exact absurd (hdigit '0' rfl) (by decide)
    · exact absurd (hdigit '0' rfl) (by decide)
    · exact digits_of_head hdigit
  have hpoint : spelled ['.'] cs = none := by
    cases cs with
    | nil => rfl
    | cons c r =>
      have := (hhead c rfl).2
      simp [spelled, List.isPrefixOf, Ne.symm this]
  simp [number, decimal, longest, andThen, hbased, hwhole, hpoint, digits_of_head hdigit]

end Lexeme

namespace Rule

variable {closed : N → Prop} {heads : Heads}

@[simp]
theorem shut_sign {w : String} (hw : w ≠ "") (h : heads w.toList.head? = false) :
    (sign w : Rule N).Shut closed heads :=
  Lexeme.misses_spelled (by simpa using hw) h

@[simp]
theorem idle_sign {w : String} (hw : w ≠ "") (h : heads w.toList.head? = false) :
    (sign w : Rule N).Idle closed heads :=
  Lexeme.misses_spelled (by simpa using hw) h

@[simp]
theorem shut_mark {w : String} (hw : w ≠ "") (h : heads w.toList.head? = false)
    (stops : String) : (mark w stops : Rule N).Shut closed heads :=
  Lexeme.misses_of_spelled (by simpa using hw) h fun _ _ => Lexeme.spelled_of_mark

@[simp]
theorem idle_mark {w : String} (hw : w ≠ "") (h : heads w.toList.head? = false)
    (stops : String) : (mark w stops : Rule N).Idle closed heads :=
  Lexeme.misses_of_spelled (by simpa using hw) h fun _ _ => Lexeme.spelled_of_mark

@[simp]
theorem shut_word {w : String} (hw : w ≠ "") (h : heads w.toList.head? = false) :
    (word w : Rule N).Shut closed heads :=
  Lexeme.misses_keyword (by simpa using hw) h

@[simp]
theorem idle_word {w : String} (hw : w ≠ "") (h : heads w.toList.head? = false) :
    (word w : Rule N).Idle closed heads :=
  Lexeme.misses_keyword (by simpa using hw) h

@[simp]
theorem shut_leaf {t : NodeType} {s : Scan} (h : Misses heads s) :
    (leaf t s : Rule N).Shut closed heads :=
  h

@[simp]
theorem idle_leaf {t : NodeType} {s : Scan} (h : Misses heads s) :
    (leaf t s : Rule N).Idle closed heads :=
  h

@[simp]
theorem shut_keyword {t : NodeType} {w : List Char} (hw : w ≠ []) (h : heads w.head? = false) :
    (leaf t (Lexeme.keyword w) : Rule N).Shut closed heads :=
  Lexeme.misses_keyword hw h

theorem shut_any {rs : List (Rule N)} (h : ∀ r ∈ rs, r.Shut closed heads) :
    (any rs).Shut closed heads := by
  induction rs with
  | nil => trivial
  | cons r rs ih =>
    cases rs with
    | nil => exact h r List.mem_cons_self
    | cons r' rs =>
      exact ⟨h r List.mem_cons_self, ih fun x hx => h x (List.mem_cons_of_mem _ hx)⟩

end Rule

/-! ## Forms -/

namespace Form

open Rule

/-- The marks that close what an expression stands in, or the end of the text. -/
def isCloser : Heads
  | none => true
  | some c => ")]\x7d,;".toList.contains c

/-- The mark that a form opens with, if it opens with one. -/
def opener? : Form → Option Char
  | block => some '\x7b'
  | template => some '\x60'
  | arguments => some '('
  | object => some '\x7b'
  | array => some '['
  | parameters => some '('
  | decorator => some '@'
  | objectType => some '\x7b'
  | typeArguments => some '<'
  | typeParameters => some '<'
  | element => some '<'
  | markupExpression => some '\x7b'
  | _ => none

/-- The forms that open with another mark than the given ones. -/
def Apart (heads : Heads) (x : Form) : Prop :=
  ∃ c, x.opener? = some c ∧ heads (some c) = false

/-- The forms that do not fit where a mark closes what they stand in: expressions and their
parts, and all that open with a mark. -/
def IsClosed : Form → Prop
  | expressions _ => True
  | expression _ => True
  | binary _ _ => True
  | unary _ => True
  | operand _ => True
  | construction => True
  | atom => True
  | pattern => True
  | propertyName => True
  | x => x.opener?.isSome = true

variable {closed : Form → Prop} {heads : Heads}

/-! ### Lexemes of the grammar -/

@[simp]
theorem shut_question (h : heads (some '?') = false) : question.Shut closed heads := by
  intro cs hcs
  dsimp only
  split <;> simp_all

@[simp]
theorem shut_optionalLink (h : heads (some '?') = false) : optionalLink.Shut closed heads := by
  intro cs hcs
  dsimp only
  split <;> simp_all

@[simp]
theorem idle_optionalLink (h : heads (some '?') = false) : optionalLink.Idle closed heads :=
  (shut_optionalLink h : optionalLink.Shut closed heads)

@[simp]
theorem shut_privateName (h : heads (some '#') = false) : privateName.Shut closed heads := by
  intro cs hcs
  dsimp only
  split <;> simp_all

theorem shut_onLine (s : Setting) {r : Part} (h : r.Shut closed heads) :
    (onLine s r).Shut closed heads := by
  unfold onLine
  split
  · exact .inr ⟨trivial, h⟩
  · exact h

/-! ### Forms that open with a mark -/

theorem shut_apart (d : Dialect) (x : Form) (hx : x.Apart heads) :
    (programs d x).Shut (Apart heads) heads := by
  obtain ⟨c, hc, hheads⟩ := hx
  cases x <;> cases hc <;>
    simp [programs, blockRule, templateRule, argumentsRule, objectRule, arrayRule, parametersRule,
      decoratorRule, typeMembers, typeArgumentsRule, typeParametersRule, elementRule,
      markupExpressionRule, row, hheads]

/-! ### Expressions -/

theorem eq_of_isCloser {c : Char} (h : isCloser (some c) = true) :
    c = ')' ∨ c = ']' ∨ c = '\x7d' ∨ c = ',' ∨ c = ';' := by
  simpa [isCloser] using h

theorem wordless_isCloser : Lexeme.Wordless isCloser := by
  intro c hc
  rcases eq_of_isCloser hc with rfl | rfl | rfl | rfl | rfl <;> decide

@[simp]
theorem misses_word_isCloser : Misses isCloser Lexeme.word :=
  Lexeme.misses_word wordless_isCloser

@[simp]
theorem misses_wordExcept_isCloser (reserved : List (List Char)) :
    Misses isCloser (Lexeme.wordExcept reserved) :=
  Lexeme.misses_wordExcept wordless_isCloser reserved

@[simp]
theorem misses_number_isCloser : Misses isCloser Lexeme.number := by
  refine Lexeme.misses_number fun c hc => ?_
  rcases eq_of_isCloser hc with rfl | rfl | rfl | rfl | rfl <;> decide

/-- Forms that do not fit where a mark closes what they stand in. -/
theorem shut_closed (d : Dialect) (x : Form) (hx : x.IsClosed) : (programs d x).Shut IsClosed isCloser := by
  cases x with
  | expressions s => simp [programs, expressionsRule, IsClosed]
  | expression s => simp [programs, expressionRule, IsClosed]
  | binary s n => simp [programs, binaryRule, IsClosed]
  | unary s =>
    cases d <;> simp [programs, unaryRule, any, isCloser, IsClosed, opener?]
  | operand s =>
    obtain ⟨a, b, c⟩ := s
    cases d <;> cases b <;>
      simp [programs, operandRule, any, row, opt, isCloser, IsClosed, opener?, arrowFunction,
        destructuringAssignment, objectPattern, arrayPattern, signature, bareSignature]
  | construction => simp [programs, constructionRule, IsClosed]
  | atom =>
    simp [programs, atomRule, any, row, opt, isCloser, IsClosed, opener?, functionExpression,
      identifier, string, number, regex, classExpression]
  | pattern =>
    simp [programs, patternRule, any, row, isCloser, objectPattern, arrayPattern, targetPath,
      identifier]
  | propertyName => simp [programs, propertyNameRule, any, row, isCloser, string, number]
  | program => cases hx
  | statement => cases hx
  | declaration => cases hx
  | classBody => cases hx
  | type_ => cases hx
  | unionType => cases hx
  | prefixedType => cases hx
  | primaryType => cases hx
  | block => simp [programs, blockRule, row, isCloser]
  | template => simp [programs, templateRule, row, isCloser]
  | arguments => simp [programs, argumentsRule, row, isCloser]
  | object => simp [programs, objectRule, row, isCloser]
  | array => simp [programs, arrayRule, row, isCloser]
  | parameters => simp [programs, parametersRule, row, isCloser]
  | decorator => simp [programs, decoratorRule, isCloser]
  | objectType => simp [programs, typeMembers, row, isCloser]
  | typeArguments => simp [programs, typeArgumentsRule, row, isCloser]
  | typeParameters => simp [programs, typeParametersRule, row, isCloser]
  | element => simp [programs, elementRule, row, isCloser]
  | markupExpression => simp [programs, markupExpressionRule, row, isCloser]

end Form

end Retarget.Syntax
