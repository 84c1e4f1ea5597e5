import Retarget.Proofs.Syntax.Reaching

/-!
# Phrases of the language

How expressions read where they stand alone: an atom that a closing mark follows reads as an
expression (`accept_expression`), a call of a name as one, too, and lists between brackets
read item by item.
-/

namespace Retarget.Syntax.Form

open Rule

variable {d : Dialect} {a : Part} {left k l : Option Kind} {cs r t u v w x : List Char} {s : Setting}

theorem accept_eq (d : Dialect) (x : Form) (cs : List Char) :
    (programs d).accept x cs = (programs d x).scan (programs d).accept none cs :=
  (ranked_programs d).accept_eq x cs

theorem exists_accept {x : Form} (h : (programs d x).Reaches (programs d).accept none cs r) :
    ∃ k, (programs d).accept x cs = some (k, r) := by
  rw [accept_eq]
  exact h

/-- A text that opens with a given character. -/
def only (c : Char) : Heads :=
  fun o => o = some c

theorem wordless_only {c : Char} (hc : Lexeme.isWordStart c = false) (hslash : c ≠ '\\') :
    Lexeme.Wordless (only c) := by
  intro x hx
  obtain rfl : x = c := by simpa [only] using hx
  exact ⟨hc, hslash⟩

theorem scan_none_of_apart {heads : Heads} (ha : a.Shut (Apart heads) heads)
    (hcs : Opens heads cs) (left : Option Kind) :
    a.scan (programs d).accept left cs = none :=
  ha.scan_eq_none (fun _ hx _ hcs => Grammar.accept_eq_none (shut_apart d) hx hcs) left hcs

/-- A rule does not fit where a text opens with a character that it does not open with. -/
theorem scan_none_at {c : Char} (hcs : Lexeme.skip cs = c :: t)
    (ha : a.Shut (Apart (only c)) (only c)) (left : Option Kind) :
    a.scan (programs d).accept left cs = none :=
  scan_none_of_apart ha (by simp [Opens, only, hcs]) left

theorem scan_none_of_closer (ha : a.Shut IsClosed isCloser) (hcs : Opens isCloser cs)
    (left : Option Kind) : a.scan (programs d).accept left cs = none :=
  ha.scan_eq_none (fun _ hx _ hcs => Grammar.accept_eq_none (shut_closed d) hx hcs) left hcs

/-! ## What follows an operand -/

theorem shut_behind (s : Setting) : (any (behind s)).Shut IsClosed isCloser := by
  obtain ⟨a, b, c⟩ := s
  cases a <;>
    simp [behind, any, row, opt, isCloser, IsClosed, opener?, memberStep, subscriptStep,
      nonNullStep, templateStep, onLine]

theorem shut_typeArgumentSteps (s : Setting) :
    (any (typeArgumentSteps s)).Shut IsClosed isCloser := by
  unfold typeArgumentSteps
  split
  · simp [any, IsClosed, opener?]
  · trivial

theorem shut_of_mem_lateSteps {s : Setting} {r : Part} (hr : r ∈ lateSteps s) :
    r.Shut IsClosed isCloser := by
  unfold lateSteps at hr
  split at hr
  · rcases List.mem_cons.mp hr with rfl | hr
    · exact .inr ⟨trivial, shut_typeArgumentSteps s⟩
    · rw [List.mem_singleton.mp hr]
      exact .inr ⟨trivial, shut_behind s⟩
  · cases hr

theorem shut_of_binaryStep {s : Setting} {r : Part} (h : BinaryStep s r) :
    r.Shut IsClosed isCloser := by
  have hmark : ∀ row ∈ binaryMarks, row.1 ≠ "" ∧ isCloser row.1.toList.head? = false := by
    decide
  have hword : ∀ row ∈ binaryWords, row.1 ≠ "" ∧ isCloser row.1.toList.head? = false := by
    decide
  cases h with
  | never => trivial
  | marked hrow _ =>
    obtain ⟨hne, hhead⟩ := hmark _ hrow
    simp [hne, hhead]
  | worded hrow _ =>
    obtain ⟨hne, hhead⟩ := hword _ hrow
    simp [hne, hhead]
  | cast h =>
    refine shut_onLine s ?_
    rcases eq_of_mem_casts h with ⟨rfl, rfl⟩ | ⟨rfl, rfl⟩
    · simp [isCloser]
    · simp [isCloser]
  | late hr => exact shut_of_mem_lateSteps hr

/-- The rules that an operand grows by. -/
def operandSteps (s : Setting) : Part :=
  any (behind s ++ [.then_ (.after isTarget) (any
    [.around .assignmentExpression (some .left)
       (.then_ (mark "=" "=>") (.role .right (.form (.expression s)))),
     .around .augmentedAssignmentExpression (some .left)
       (.then_ (.role .operator (any (augmentedMarks.map sign)))
         (.role .right (.form (.expression s))))])] ++ typeArgumentSteps s)

theorem shut_operandSteps (s : Setting) : (operandSteps s).Shut IsClosed isCloser := by
  obtain ⟨a, b, c⟩ := s
  cases a <;> cases c <;>
    simp [operandSteps, behind, typeArgumentSteps, augmentedMarks, any, row, opt, isCloser, IsClosed,
      opener?, memberStep, subscriptStep, nonNullStep, templateStep, onLine]

/-! ## Expressions of one atom -/

/-- Texts that open like an expression without a unary operator: with a bracket, with a quote
or with a word that none of the operators begins like. -/
def plainly : Heads
  | none => false
  | some c => "\x7b['mnr".toList.contains c

/-- What an operand reads where neither an arrow function nor an assignment to parts
stands. -/
theorem scan_operandBase {x : Option Kind × List Char}
    (harrow : (arrowFunction s).scan (programs d).accept none cs = none)
    (hparts : (destructuringAssignment s).scan (programs d).accept none cs = none)
    (hatom : (programs d).accept .atom cs = some x) (rest : Part) :
    (any [arrowFunction s, destructuringAssignment s, .form .atom, rest]).scan (programs d).accept
      none cs = some x := by
  refine (scan_or_of_none harrow).trans ((scan_or_of_none hparts).trans ?_)
  exact scan_or_of_some hatom

theorem accept_operand (hgrows : Grows ((operandSteps s).scan (programs d).accept) k r l t)
    (harrow : (arrowFunction s).scan (programs d).accept none cs = none)
    (hparts : (destructuringAssignment s).scan (programs d).accept none cs = none)
    (hatom : (programs d).accept .atom cs = some (k, r)) :
    (programs d).accept (.operand s) cs = some (l, t) := by
  rw [accept_eq]
  exact hgrows.scan (scan_operandBase harrow hparts hatom _)

/-- The operators before an operand, with what they apply to. -/
def unaryOperators (s : Setting) : List Part :=
  let update (spelling : String) : Part := .node .updateExpression
    (.then_ (.role .operator (sign spelling)) (.role .argument (.form (.unary s.tight))))
  let operator (o : Part) : Part := .node .unaryExpression
    (.then_ (.role .operator o) (.role .argument (.form (.unary s.tight))))
  [update "++", update "--",
   operator (mark "!" ""), operator (sign "~"), operator (mark "-" "-="),
   operator (mark "+" "+="), operator (word "typeof"), operator (word "void"),
   operator (word "delete"),
   .node .awaitExpression (.then_ (word "await") (.form (.unary s.tight))),
   .node .yieldExpression (.then_ (word "yield") (any
     [.then_ (sign "*") (.form (.expression s)),
      onLine s (.form (.expression s)), .nothing]))]

theorem shut_unaryOperators {a : Part} (ha : a ∈ unaryOperators s) :
    a.Shut (Apart plainly) plainly := by
  have hall : ∀ a ∈ unaryOperators s, a.Shut (Apart plainly) plainly := by
    simp [unaryOperators, plainly]
  exact hall a ha

theorem accept_unary (hopens : Opens plainly cs) (hr : Opens isCloser r)
    (hoperand : (programs d).accept (.operand s) cs = some (k, r)) :
    (programs d).accept (.unary s) cs = some (k, r) := by
  have hhead (assertion : Part) :
      (any (unaryOperators s ++ [.form (.operand s), assertion])).scan (programs d).accept none cs =
        some (k, r) := by
    rw [scan_any_append (List.cons_ne_nil _ _) fun a ha =>
      scan_none_of_apart (shut_unaryOperators ha) hopens none]
    exact scan_or_of_some hoperand
  rw [accept_eq]
  refine (Grows.stop ?_).scan (hhead _)
  exact scan_none_of_closer (shut_any fun r hr => shut_of_mem_lateSteps hr) hr k

theorem accept_binary {n : Nat} (hr : Opens isCloser r)
    (hunary : (programs d).accept (.unary s) cs = some (k, r)) :
    (programs d).accept (.binary s n) cs = some (k, r) := by
  obtain ⟨steps, hrule, hsteps⟩ := exists_binarySteps s n
  rw [accept_eq, programs, hrule]
  refine (Grows.stop ?_).scan hunary
  exact scan_none_of_closer (shut_any fun r hr => shut_of_binaryStep (hsteps r hr)) hr k

theorem accept_expression_of_binary (hr : Opens isCloser r)
    (hbinary : (programs d).accept (.binary s 0) cs = some (k, r)) :
    (programs d).accept (.expression s) cs = some (k, r) := by
  rw [accept_eq]
  refine (Grows.stop ?_).scan hbinary
  exact scan_none_of_closer (by simp [row, isCloser]) hr k

theorem accept_expression (hopens : Opens plainly cs) (hr : Opens isCloser r)
    (hoperand : (programs d).accept (.operand s) cs = some (k, r)) :
    (programs d).accept (.expression s) cs = some (k, r) :=
  accept_expression_of_binary hr (accept_binary hr (accept_unary hopens hr hoperand))

/-! ## Names -/

/-- A text opens with a character that a word opens with. -/
def wordStart : Heads
  | none => false
  | some c => Lexeme.isWordStart c

theorem opens_name (hcs : Lexeme.skip cs = w ++ r) (hw : Lexeme.isName w = true) :
    Opens wordStart cs := by
  unfold Opens
  rw [hcs]
  cases w with
  | nil => cases hw
  | cons c w =>
    obtain ⟨hc, -⟩ : Lexeme.isWordStart c = true ∧ w.all Lexeme.isWordChar = true := by
      simpa [Lexeme.isName] using hw
    exact hc

/-- A name that is neither a keyword of expressions nor `new` reads as an identifier. -/
theorem accept_name (hcs : Lexeme.skip cs = w ++ r) (hw : Lexeme.isName w = true)
    (hr : Lexeme.EndsWord r) (hnew : w ≠ "new".toList) (hreserved : w ∉ expressionWords)
    (hnext : (word "function" : Part).scan (programs d).accept none r = none) :
    (programs d).accept .atom cs = some (some (.named .identifier), r) := by
  have hother {v : String} (hv : v.toList ≠ w) :
      (word v : Part).scan (programs d).accept none cs = none :=
    scan_word_of_ne hcs hw hr hv none
  have hfunction : (word "function" : Part).scan (programs d).accept none cs = none := by
    refine hother ?_
    rintro rfl
    exact hreserved (by decide)
  have hnone (b : Part) : (then_ (opt (word "async")) (then_ (word "function") b)).scan
      (programs d).accept none cs = none := by
    by_cases hasync : "async".toList = w
    · have hword : (word "async" : Part).Reaches (programs d).accept none cs r :=
        .of_scan (scan_word (hasync ▸ hcs) (by decide) hr none)
      exact hword.opt.then_none (scan_then_of_first hnext)
    · exact (reaches_opt_of_none (hother hasync)).then_none (scan_then_of_first hfunction)
  rw [accept_eq]
  refine (scan_or_of_none ?_).trans ((scan_or_of_none ?_).trans (scan_or_of_some ?_))
  · exact scan_node_of_none (scan_then_of_first (hother (Ne.symm hnew))) _
  · refine (scan_or_of_none ?_).trans ?_
    · exact scan_node_of_none (hnone _) _
    · exact scan_node_of_none (hnone _) _
  · exact scan_leaf_wordExcept hcs hw hr hreserved none

/-- Behind a name, no arrow function stands where there is no arrow. -/
theorem arrow_none_of_name (hcs : Lexeme.skip cs = w ++ r) (hw : Lexeme.isName w = true)
    (hr : Lexeme.EndsWord r) (hasync : "async".toList ≠ w) (hreserved : w ∉ expressionWords)
    (hnext : (sign "=>" : Part).scan (programs d).accept none r = none) :
    (arrowFunction s).scan (programs d).accept none cs = none := by
  have hname : identifier.Reaches (programs d).accept none cs r :=
    .of_scan (scan_leaf_wordExcept hcs hw hr hreserved none)
  refine scan_node_of_none (scan_then_of_first ((scan_or_of_none ?_).trans ?_)) _
  · exact scan_then_of_first (scan_word_of_ne hcs hw hr hasync none)
  · exact (hname.role .parameter).or_left.then_none hnext

/-! ## Brackets -/

/-- A text that opens with a bracket of an object or array, or with a quote. -/
def bracket : Heads
  | none => false
  | some c => "\x7b['".toList.contains c

theorem misses_wordExcept_bracket (reserved : List (List Char)) :
    Misses bracket (Lexeme.wordExcept reserved) := by
  refine Lexeme.misses_wordExcept (fun c hc => ?_) reserved
  have hcases : c = '\x7b' ∨ c = '[' ∨ c = '\'' := by simpa [bracket] using hc
  rcases hcases with rfl | rfl | rfl <;> decide

theorem arrow_none_of_bracket (hcs : Opens bracket cs) :
    (arrowFunction s).scan (programs d).accept none cs = none := by
  refine scan_none_of_apart ?_ hcs none
  obtain ⟨x, y, z⟩ := s
  cases y <;>
    simp [arrowFunction, any, row, opt, bracket, misses_wordExcept_bracket, Apart, opener?,
      signature, bareSignature]

/-- An atom that opens with a bracket or a quote is an object, an array, a string or
something else. -/
theorem exists_atom_of_bracket (d : Dialect) : ∃ other : Part, ∀ {cs : List Char},
    Opens bracket cs → (programs d).accept .atom cs =
      (any [.form .object, .form .array, string, other]).scan (programs d).accept none cs := by
  apply Exists.intro
  intro cs hcs
  rw [accept_eq]
  refine (scan_or_of_none ?_).trans ((scan_or_of_none ?_).trans ((scan_or_of_none ?_).trans rfl))
  · exact scan_none_of_apart (by simp [row, bracket]) hcs none
  · exact scan_none_of_apart (by simp [functionExpression, any, row, opt, bracket]) hcs none
  · exact scan_none_of_apart (by simp [identifier, misses_wordExcept_bracket]) hcs none

/-- What opens with a bracket or a quote is an expression if it is an atom and no pattern. -/
theorem accept_expression_of_bracket (hcs : Opens bracket cs) (hr : Opens isCloser r)
    (hparts : (destructuringAssignment s).scan (programs d).accept none cs = none)
    (hatom : (programs d).accept .atom cs = some (k, r)) :
    (programs d).accept (.expression s) cs = some (k, r) := by
  refine accept_expression ?_ hr (accept_operand
    (.stop (scan_none_of_closer (shut_operandSteps s) hr k)) (arrow_none_of_bracket hcs) hparts hatom)
  unfold Opens at hcs ⊢
  cases hhead : (Lexeme.skip cs).head? with
  | none => rw [hhead] at hcs; cases hcs
  | some c =>
    rw [hhead] at hcs
    have hcases : c = '\x7b' ∨ c = '[' ∨ c = '\'' := by simpa [bracket] using hcs
    rcases hcases with rfl | rfl | rfl <;> decide

/-- A list of items leads from a text to a rest; a comma may stand behind the last item. -/
inductive Items (d : Dialect) (item : Part) : List Char → List Char → Prop
  | done {cs : List Char} (hitem : item.scan (programs d).accept none cs = none)
      (hcomma : (sign "," : Part).scan (programs d).accept none cs = none) : Items d item cs cs
  | last {cs r : List Char} (hitem : item.Reaches (programs d).accept none cs r)
      (hcomma : (sign "," : Part).scan (programs d).accept none r = none) : Items d item cs r
  | more {cs r t u : List Char} (hitem : item.Reaches (programs d).accept none cs r)
      (hcomma : Lexeme.skip r = ',' :: t) (rest : Items d item t u) : Items d item cs u

/-- A list reads as a first item and a repetition of commas with further items. -/
theorem Items.repeats {item : Part} (h : Items d item cs r) :
    ∃ t, (opt item).Reaches (programs d).accept none cs t ∧
      Repeats ((then_ (sign ",") (opt item)).scan (programs d).accept none) t r := by
  induction h with
  | done hitem hcomma =>
    exact ⟨_, reaches_opt_of_none hitem, .stop (scan_then_of_first hcomma)⟩
  | last hitem hcomma => exact ⟨_, hitem.opt, .stop (scan_then_of_first hcomma)⟩
  | @more cs r t u hitem hcomma rest ih =>
    obtain ⟨v, hfirst, hmany⟩ := ih
    have hsign : (sign "," : Part).Reaches (programs d).accept none r t :=
      .of_scan (scan_sign hcomma none)
    obtain ⟨k, hk⟩ := hsign.then hfirst
    refine ⟨r, hitem.opt, .turn hk ?_ hmany⟩
    -- the comma is taken
    obtain ⟨l, hl⟩ := hfirst
    have hv := length_scan_le (Grammar.shortens_accept _) _ _ hl
    have hr := Lexeme.length_skip_le r
    rw [hcomma, List.length_cons] at hr
    omega

theorem Items.reaches {item : Part} (h : Items d item cs r) :
    (sparse item).Reaches (programs d).accept none cs r := by
  obtain ⟨t, hfirst, hmany⟩ := h.repeats
  exact hfirst.then hmany.reaches

/-- A list between its brackets. -/
theorem Items.bracketed {item : Part} {o c : String} (h : Items d item t r)
    (hopen : Lexeme.skip cs = o.toList ++ t) (hclose : Lexeme.skip r = c.toList ++ u) :
    (row [sign o, sparse item, sign c]).Reaches (programs d).accept none cs u :=
  Reaches.then (.of_scan (scan_sign hopen none))
    (h.reaches.then (.of_scan (scan_sign hclose none)))

/-- An expression as an item. -/
theorem reaches_item (hspread : (sign "..." : Part).scan (programs d).accept left cs = none)
    (hcs : (programs d).accept (.expression .closed) cs = some (k, r)) :
    item.Reaches (programs d).accept left cs r :=
  .or_right ⟨k, hcs⟩ (scan_node_of_none (scan_then_of_first hspread) _)

/-- The arguments of a call. -/
theorem accept_arguments (hopen : Lexeme.skip cs = '(' :: t) (hitems : Items d item t r)
    (hclose : Lexeme.skip r = ')' :: u) : ∃ k, (programs d).accept .arguments cs = some (k, u) :=
  exists_accept ((hitems.bracketed hopen hclose).node _)

/-- No item is left where a mark closes the list. -/
theorem items_of_closer {item : Part} {c : Char} (hitem : item.Shut IsClosed isCloser)
    (hcs : Lexeme.skip cs = c :: t) (hc : isCloser (some c) = true) (hne : c ≠ ',') :
    Items d item cs cs := by
  refine .done (scan_none_of_closer hitem ?_ none) (scan_none_at hcs ?_ none)
  · simpa [Opens, hcs] using hc
  · simp [only, Ne.symm hne]

theorem shut_item : item.Shut IsClosed isCloser := by
  simp [item, isCloser, IsClosed]

/-! ## Strings -/

/-- A text that can stand between single quotes as it is. -/
def isPlainString (m : List Char) : Bool :=
  !m.isEmpty && m.all fun c => c != '\'' && c != '\\' && c != '\r' && c != '\n'

theorem reaches_string {m : List Char} (hm : isPlainString m = true)
    (hcs : Lexeme.skip cs = '\'' :: (m ++ '\'' :: r)) (left : Option Kind) :
    string.Reaches (programs d).accept left cs r := by
  obtain ⟨hne, hall⟩ : m ≠ [] ∧
      m.all (fun c => c != '\'' && c != '\\' && c != '\r' && c != '\n') = true := by
    simpa [isPlainString] using hm
  have hchars : Lexeme.stringChars '\'' (m ++ '\'' :: r) = some m.length := by
    unfold Lexeme.stringChars Lexeme.run1
    rw [Lexeme.run_append hall (by simp)]
    cases m with
    | nil => exact absurd rfl hne
    | cons c m => rfl
  have hstop : Lexeme.stringChars '\'' ('\'' :: r) = none := by
    simp [Lexeme.stringChars, Lexeme.run1, Lexeme.run]
  have hquote : Lexeme.skip ('\'' :: r) = '\'' :: r :=
    Lexeme.skip_cons (by decide) (by decide) r
  have hchunks : Repeats
      ((or_ (.glued (.named .stringFragment) (Lexeme.stringChars '\''))
        (.glued (.named .escapeSequence) Lexeme.escape) : Part).scan (programs d).accept left)
      (m ++ '\'' :: r) ('\'' :: r) := by
    refine .turn (k := some (.named .stringFragment)) (t := '\'' :: r) ?_ ?_ (.stop ?_)
    · exact scan_or_of_some (by simp [scan, hchars])
    · have := List.length_pos_iff.mpr hne
      simp only [List.length_append, List.length_cons]
      omega
    · simp [scan, hstop, Lexeme.escape]
  have hopen : (sign "'" : Part).Reaches (programs d).accept left cs (m ++ '\'' :: r) :=
    .of_scan (scan_sign hcs left)
  have hclose : (sign "'" : Part).Reaches (programs d).accept left ('\'' :: r) r :=
    .of_scan (scan_sign hquote left)
  exact ((hopen.then (hchunks.reaches.then hclose)).or_left).node _

/-! ## Expressions that open with a bracket or a quote -/

/-- A quoted text is an expression. -/
theorem accept_quoted {m : List Char} (hm : isPlainString m = true)
    (hcs : Lexeme.skip cs = '\'' :: (m ++ '\'' :: r)) (hr : Opens isCloser r) :
    ∃ k, (programs d).accept (.expression s) cs = some (k, r) := by
  have hbracket : Opens bracket cs := by simp [Opens, hcs, bracket]
  obtain ⟨other, hatom⟩ := exists_atom_of_bracket d
  obtain ⟨k, hk⟩ := reaches_string (d := d) hm hcs none
  refine ⟨k, accept_expression_of_bracket hbracket hr ?_ ?_⟩
  · exact scan_none_at hcs
      (by simp [destructuringAssignment, objectPattern, arrayPattern, row, only]) none
  · rw [hatom hbracket]
    refine (scan_or_of_none ?_).trans ((scan_or_of_none ?_).trans (scan_or_of_some hk))
    · exact scan_none_at hcs (by simp [Apart, only, opener?]) none
    · exact scan_none_at hcs (by simp [Apart, only, opener?]) none

/-! ## Objects -/

/-- A member of an object. -/
def member : Part :=
  any
    [.node .spreadElement (.then_ (sign "...") (.form (.expression .closed))),
     .node .pair (row [.role .key (.form .propertyName), sign ":",
       .role .value (.form (.expression .closed))]),
     method,
     leaf .shorthandPropertyIdentifier Lexeme.word]

theorem shut_member : member.Shut IsClosed isCloser := by
  simp [member, any, row, opt, isCloser, IsClosed, method, methodQualifiers, qualifiers, modifier]

/-- An object between its braces. -/
theorem accept_object (hopen : Lexeme.skip cs = '\x7b' :: t) (hitems : Items d member t r)
    (hclose : Lexeme.skip r = '\x7d' :: u) : ∃ k, (programs d).accept .object cs = some (k, u) :=
  exists_accept ((hitems.bracketed hopen hclose).node _)

/-- An array between its brackets. -/
theorem accept_array (hopen : Lexeme.skip cs = '[' :: t) (hitems : Items d item t r)
    (hclose : Lexeme.skip r = ']' :: u) : ∃ k, (programs d).accept .array cs = some (k, u) :=
  exists_accept ((hitems.bracketed hopen hclose).node _)

/-- A member of a pattern that takes an object apart. -/
def patternMember : Part :=
  any
    [.node .restPattern (.then_ (sign "...") (.form .pattern)),
     .node .pairPattern (row [.role .key (.form .propertyName), sign ":",
       .role .value patternWithDefault]),
     .grow (leaf .shorthandPropertyIdentifierPattern Lexeme.word)
       (.around .objectAssignmentPattern (some .left)
         (.then_ (mark "=" "=>") (.role .right (.form (.expression .closed)))))]

theorem shut_patternMember : patternMember.Shut IsClosed isCloser := by
  simp [patternMember, any, row, isCloser, IsClosed]

theorem reaches_objectPattern (hopen : Lexeme.skip cs = '\x7b' :: t)
    (hitems : Items d patternMember t r) (hclose : Lexeme.skip r = '\x7d' :: u) :
    objectPattern.Reaches (programs d).accept none cs u :=
  (hitems.bracketed hopen hclose).node _

/-- Parts that no equals sign follows are not assigned to. -/
theorem destructuring_none_of_reaches
    (hparts : (or_ objectPattern arrayPattern).Reaches (programs d).accept none cs r)
    (hr : Opens isCloser r) :
    (destructuringAssignment s).scan (programs d).accept none cs = none := by
  have hmark : (mark "=" "=>" : Part).scan (programs d).accept none r = none :=
    scan_none_of_closer (by simp [isCloser]) hr none
  exact scan_node_of_none ((hparts.role .left).then_none (scan_then_of_first hmark)) _

/-- An object without members is an expression. -/
theorem accept_bare_object (hopen : Lexeme.skip cs = '\x7b' :: t) (hclose : Lexeme.skip t = '\x7d' :: r)
    (hr : Opens isCloser r) : ∃ k, (programs d).accept (.expression s) cs = some (k, r) := by
  have hbracket : Opens bracket cs := by simp [Opens, hopen, bracket]
  obtain ⟨other, hatom⟩ := exists_atom_of_bracket d
  obtain ⟨k, hk⟩ := accept_object (d := d) hopen
    (items_of_closer shut_member hclose (by decide) (by decide)) hclose
  have hpattern := reaches_objectPattern (d := d) hopen
    (items_of_closer shut_patternMember hclose (by decide) (by decide)) hclose
  refine ⟨k, accept_expression_of_bracket hbracket hr
    (destructuring_none_of_reaches hpattern.or_left hr) ?_⟩
  rw [hatom hbracket]
  exact scan_or_of_some hk

/-! ## Arrays -/

theorem reaches_arrayPattern (hopen : Lexeme.skip cs = '[' :: t)
    (hitems : Items d patternWithDefault t r) (hclose : Lexeme.skip r = ']' :: u) :
    arrayPattern.Reaches (programs d).accept none cs u :=
  (hitems.bracketed hopen hclose).node _

theorem scan_objectPattern_of_array (hopen : Lexeme.skip cs = '[' :: t) :
    objectPattern.scan (programs d).accept none cs = none :=
  scan_none_at hopen (by simp [objectPattern, row, only]) none

/-- An array is an expression if it does not read as a pattern, or if it ends at the same
place as one. -/
theorem accept_array_expression (hopen : Lexeme.skip cs = '[' :: t) (hitems : Items d item t r)
    (hclose : Lexeme.skip r = ']' :: u) (hu : Opens isCloser u)
    (hpattern : arrayPattern.scan (programs d).accept none cs = none ∨
      arrayPattern.Reaches (programs d).accept none cs u) :
    ∃ k, (programs d).accept (.expression s) cs = some (k, u) := by
  have hbracket : Opens bracket cs := by simp [Opens, hopen, bracket]
  have hobject := scan_objectPattern_of_array (d := d) hopen
  obtain ⟨other, hatom⟩ := exists_atom_of_bracket d
  obtain ⟨k, hk⟩ := accept_array hopen hitems hclose
  refine ⟨k, accept_expression_of_bracket hbracket hu ?_ ?_⟩
  · rcases hpattern with hnone | hreaches
    · exact scan_node_of_none (scan_then_of_first ((scan_or_of_none hobject).trans hnone)) _
    · exact destructuring_none_of_reaches (hreaches.or_right hobject) hu
  · rw [hatom hbracket]
    refine (scan_or_of_none ?_).trans (scan_or_of_some hk)
    exact scan_none_at hopen (by simp [Apart, only, opener?]) none

theorem wordStart_of_mark {c : Char} (hc : Lexeme.isMark c = true) : wordStart (some c) = false := by
  have hmarks : ":;\x60\"'@#.,|^&<=>+-*/\\%?!~()[]\x7b\x7d".toList.all
      (fun c => !Lexeme.isWordStart c) = true := by
    decide +kernel
  have hc : c ∈ _ := List.contains_iff_mem.mp hc
  exact (Bool.not_eq_true' _).mp (List.all_eq_true.mp hmarks c hc)

/-- The array pattern that an instance in brackets opens like. -/
theorem arrayPattern_none_of_instance (hopen : Lexeme.skip cs = '[' :: t)
    (hnew : Lexeme.skip t = "new".toList ++ ' ' :: (w ++ r)) (hw : Lexeme.isName w = true) :
    arrayPattern.scan (programs d).accept none cs = none := by
  have hend : Lexeme.EndsWord (' ' :: (w ++ r)) := by
    intro c hc
    obtain rfl : ' ' = c := Option.some.inj hc
    decide
  have hskip : Lexeme.skip (' ' :: (w ++ r)) = w ++ r := by
    rw [Lexeme.skip_gap (by decide), Lexeme.skip_name hw]
  have hopens : Opens wordStart (' ' :: (w ++ r)) := opens_name hskip hw
  have hnone {a : Part} (ha : a.Shut (Apart wordStart) wordStart) (left : Option Kind) :
      a.scan (programs d).accept left (' ' :: (w ++ r)) = none :=
    scan_none_of_apart ha hopens left
  have hnew' (a : Part) (ha : a.Shut (Apart (only 'n')) (only 'n')) :
      a.scan (programs d).accept none t = none :=
    scan_none_at hnew ha none
  -- the keyword reads as a name in a pattern, and nothing follows it there
  have hname : identifier.scan (programs d).accept none t =
      some (some (.named .identifier), ' ' :: (w ++ r)) :=
    scan_leaf_wordExcept hnew (by decide) hend (by decide) none
  have hpattern : (programs d).accept .pattern t =
      some (some (.named .identifier), ' ' :: (w ++ r)) := by
    rw [accept_eq]
    refine (scan_or_of_none (hnew' _ (by simp [only]))).trans ((scan_or_of_none (hnew' _ (by
      simp [objectPattern, row, only]))).trans ((scan_or_of_none (hnew' _ (by
      simp [arrayPattern, row, only]))).trans ?_))
    refine (Grows.stop (hnone ?_ _)).scan ?_
    · simp [any, row, wordStart_of_mark, Lexeme.isMark]
    · refine (scan_or_of_none (hnew' _ ?_)).trans ((scan_or_of_none (hnew' _ ?_)).trans
        ((scan_or_of_none (hnew' _ ?_)).trans hname)) <;>
      simp [only]
  have hitem : patternWithDefault.Reaches (programs d).accept none t (' ' :: (w ++ r)) := by
    refine .of_scan ((Grows.stop (hnone ?_ _)).scan hpattern)
    simp [wordStart_of_mark, Lexeme.isMark]
  have hitems : Items d patternWithDefault t (' ' :: (w ++ r)) :=
    .last hitem (hnone (by simp [wordStart_of_mark, Lexeme.isMark]) none)
  have hbracket : (sign "[" : Part).Reaches (programs d).accept none cs t :=
    .of_scan (scan_sign hopen none)
  refine scan_node_of_none (hbracket.then_none (hitems.reaches.then_none ?_)) _
  exact hnone (by simp [row, wordStart_of_mark, Lexeme.isMark]) none

/-- No name, and nothing that opens like one, is left between brackets. -/
theorem reaches_arrayPattern_nil (hopen : Lexeme.skip cs = '[' :: t) (hclose : Lexeme.skip t = ']' :: u) :
    arrayPattern.Reaches (programs d).accept none cs u := by
  have hitem : patternWithDefault.Shut IsClosed isCloser := by
    simp [patternWithDefault, IsClosed]
  exact reaches_arrayPattern hopen (items_of_closer hitem hclose (by decide) (by decide)) hclose

/-! ## Instances -/

theorem endsWord_of_mark {c : Char} (hc : Lexeme.isWordChar c = false) (hslash : c ≠ '\\')
    (r : List Char) : Lexeme.EndsWord (c :: r) := by
  intro x hx
  obtain rfl : c = x := Option.some.inj hx
  exact ⟨hc, hslash⟩

/-- A constructor call of a name is an expression. -/
theorem accept_instance (hcs : Lexeme.skip cs = "new".toList ++ ' ' :: (w ++ '(' :: u))
    (hw : Lexeme.isName w = true) (hnew : w ≠ "new".toList) (hreserved : w ∉ expressionWords)
    (harguments : (programs d).accept .arguments ('(' :: u) = some (k, r)) (hr : Opens isCloser r) :
    ∃ k, (programs d).accept (.expression s) cs = some (k, r) := by
  have hname : Lexeme.skip (' ' :: (w ++ '(' :: u)) = w ++ '(' :: u := by
    rw [Lexeme.skip_gap (by decide), Lexeme.skip_name hw]
  have hend : Lexeme.EndsWord ('(' :: u) := endsWord_of_mark (by decide) (by decide) u
  have hparen : Lexeme.skip ('(' :: u) = '(' :: u := Lexeme.skip_cons (by decide) (by decide) u
  have hblank : Lexeme.EndsWord (' ' :: (w ++ '(' :: u)) :=
    endsWord_of_mark (by decide) (by decide) _
  have hconstruction : (programs d).accept .construction (' ' :: (w ++ '(' :: u)) =
      some (some (.named .identifier), '(' :: u) := by
    rw [accept_eq]
    refine (Grows.stop (scan_none_at hparen ?_ _)).scan
      (accept_name hname hw hend hnew hreserved (scan_none_at hparen (by simp [only]) none))
    simp [any, row, opt, only, memberStep, subscriptStep, nonNullStep, onLine, Setting.closed,
      templateStep, Apart, opener?]
  have hatom : (programs d).accept .atom cs = some (some (.named .newExpression), r) := by
    have hword : (word "new" : Part).Reaches (programs d).accept none cs (' ' :: (w ++ '(' :: u)) :=
      .of_scan (scan_word hcs (by decide) hblank none)
    have hbuilt : (role .constructorName (form .construction) : Part).Reaches (programs d).accept none
        (' ' :: (w ++ '(' :: u)) ('(' :: u) :=
      .of_scan hconstruction
    have htypes : (opt (role .typeArguments (form .typeArguments)) : Part).Reaches
        (programs d).accept none ('(' :: u) ('(' :: u) :=
      reaches_opt_of_none (scan_none_at hparen (by simp [only, Apart, opener?]) none)
    have hgiven : (opt (role .arguments (form .arguments)) : Part).Reaches
        (programs d).accept none ('(' :: u) r :=
      (Reaches.of_scan harguments : (form .arguments : Part).Reaches _ none _ _).opt
    rw [accept_eq]
    exact scan_or_of_some ((hword.then (hbuilt.then (htypes.then hgiven))).scan_node _)
  refine ⟨_, accept_expression ?_ hr (accept_operand
    (.stop (scan_none_of_closer (shut_operandSteps s) hr _)) ?_ ?_ hatom)⟩
  · simp [Opens, hcs, plainly]
  · refine arrow_none_of_name hcs (by decide) hblank (by decide) (by decide) ?_
    exact scan_none_of_apart (by simp [wordStart_of_mark, Lexeme.isMark]) (opens_name hname hw) none
  · exact scan_none_at (c := 'n') hcs
      (by simp [destructuringAssignment, objectPattern, arrayPattern, row, only]) none

/-! ## Objects of one member -/

theorem misses_number_wordStart : Misses wordStart Lexeme.number := by
  refine Lexeme.misses_number fun c hc => ?_
  have hstart : Lexeme.isWordChar c = true ∧ c.isDigit = false := by
    simpa [wordStart, Lexeme.isWordStart] using hc
  refine ⟨hstart.2, ?_⟩
  rintro rfl
  exact absurd hstart.1 (by decide)

theorem accept_propertyName (hcs : Lexeme.skip cs = w ++ r) (hw : Lexeme.isName w = true)
    (hr : Lexeme.EndsWord r) :
    (programs d).accept .propertyName cs = some (some (.named .propertyIdentifier), r) := by
  have hnone {a : Part} (ha : a.Shut (Apart wordStart) wordStart) :
      a.scan (programs d).accept none cs = none :=
    scan_none_of_apart ha (opens_name hcs hw) none
  have hmarks : (any [string, number, .node .computedPropertyName
      (row [sign "[", .form (.expression .closed), sign "]"]), privateName] : Part).Shut
      (Apart wordStart) wordStart := by
    simp [any, row, string, number, misses_number_wordStart, wordStart_of_mark, Lexeme.isMark]
  obtain ⟨hstring, hnumber, hcomputed, hprivate⟩ := hmarks
  rw [accept_eq]
  refine (scan_or_of_none (hnone hstring)).trans ((scan_or_of_none (hnone hnumber)).trans
    ((scan_or_of_none (hnone hcomputed)).trans ((scan_or_of_none (hnone hprivate)).trans ?_)))
  exact scan_leaf_word hcs hw hr none

/-- A name with a colon and a value. -/
def property (value : Part) : Part :=
  row [.role .key (.form .propertyName), sign ":", .role .value value]

theorem skip_colon (u : List Char) : Lexeme.skip (':' :: u) = ':' :: u :=
  Lexeme.skip_cons (by decide) (by decide) u

theorem reaches_propertyKey (hcs : Lexeme.skip cs = w ++ ':' :: u) (hw : Lexeme.isName w = true) :
    (role .key (form .propertyName) : Part).Reaches (programs d).accept none cs (':' :: u) := by
  have hend : Lexeme.EndsWord (':' :: u) := endsWord_of_mark (by decide) (by decide) u
  exact (reaches_form ⟨_, accept_propertyName hcs hw hend⟩ none).role .key

theorem reaches_property {value : Part} (hcs : Lexeme.skip cs = w ++ ':' :: u)
    (hw : Lexeme.isName w = true) (hvalue : value.Reaches (programs d).accept none u r) :
    (property value).Reaches (programs d).accept none cs r :=
  (reaches_propertyKey hcs hw).then
    (Reaches.then (.of_scan (scan_sign (skip_colon u) none)) (hvalue.role .value))

theorem scan_property_of_none {value : Part} (hcs : Lexeme.skip cs = w ++ ':' :: u)
    (hw : Lexeme.isName w = true) (hvalue : value.scan (programs d).accept none u = none) :
    (property value).scan (programs d).accept none cs = none := by
  have hsign : (sign ":" : Part).Reaches (programs d).accept none (':' :: u) u :=
    .of_scan (scan_sign (skip_colon u) none)
  exact (reaches_propertyKey hcs hw).then_none (hsign.then_none hvalue)

theorem scan_spread_of_name {a : Part} (hcs : Lexeme.skip cs = w ++ r) (hw : Lexeme.isName w = true)
    (t : NodeType) : (node t (then_ (sign "...") a)).scan (programs d).accept none cs = none :=
  scan_none_of_apart (by simp [wordStart_of_mark, Lexeme.isMark]) (opens_name hcs hw) none

theorem reaches_member (hcs : Lexeme.skip cs = w ++ ':' :: u) (hw : Lexeme.isName w = true)
    (hvalue : ∃ k, (programs d).accept (.expression .closed) u = some (k, r)) :
    member.Reaches (programs d).accept none cs r := by
  have hexpression : (form (.expression .closed) : Part).Reaches (programs d).accept none u r :=
    hvalue
  have hproperty := (reaches_property hcs hw hexpression).node .pair
  exact .or_right hproperty.or_left (scan_spread_of_name hcs hw _)

theorem reaches_patternMember (hcs : Lexeme.skip cs = w ++ ':' :: u) (hw : Lexeme.isName w = true)
    (hvalue : patternWithDefault.Reaches (programs d).accept none u r) :
    patternMember.Reaches (programs d).accept none cs r := by
  have hproperty := (reaches_property hcs hw hvalue).node .pairPattern
  exact .or_right hproperty.or_left (scan_spread_of_name hcs hw _)

/-- A name that no pattern belongs to stands for itself. -/
theorem reaches_shorthand (hcs : Lexeme.skip cs = w ++ r) (hw : Lexeme.isName w = true)
    (hr : Lexeme.EndsWord r)
    (hproperty : (property patternWithDefault).scan (programs d).accept none cs = none)
    (hequals : (mark "=" "=>" : Part).scan (programs d).accept
      (some (.named .shorthandPropertyIdentifierPattern)) r = none) :
    patternMember.Reaches (programs d).accept none cs r := by
  have hname : (leaf .shorthandPropertyIdentifierPattern Lexeme.word : Part).scan
      (programs d).accept none cs =
        some (some (.named .shorthandPropertyIdentifierPattern), r) :=
    scan_leaf_word hcs hw hr none
  have hstop : (around .objectAssignmentPattern (some .left)
      (then_ (mark "=" "=>") (role .right (form (.expression .closed)))) : Part).scan
      (programs d).accept (some (.named .shorthandPropertyIdentifierPattern)) r = none := by
    rw [scan, scan_then_of_first hequals]
    rfl
  exact .or_right (.or_right (.of_scan ((Grows.stop hstop).scan hname))
    (scan_node_of_none hproperty _)) (scan_spread_of_name hcs hw _)

/-- Where a property does not read as a pattern, its name alone is taken for one. -/
theorem reaches_patternMember_of_none (hcs : Lexeme.skip cs = w ++ ':' :: u)
    (hw : Lexeme.isName w = true)
    (hvalue : patternWithDefault.scan (programs d).accept none u = none) :
    patternMember.Reaches (programs d).accept none cs (':' :: u) :=
  reaches_shorthand hcs hw (endsWord_of_mark (by decide) (by decide) u)
    (scan_property_of_none hcs hw hvalue) (scan_none_at (skip_colon u) (by simp [only]) _)

/-- A name that a comma or a bracket follows. -/
theorem reaches_patternMember_of_name (hcs : Lexeme.skip cs = w ++ r) (hw : Lexeme.isName w = true)
    (hend : Lexeme.EndsWord r) (hr : Opens isCloser r) :
    patternMember.Reaches (programs d).accept none cs r := by
  have hkey : (role .key (form .propertyName) : Part).Reaches (programs d).accept none cs r :=
    (reaches_form ⟨_, accept_propertyName hcs hw hend⟩ none).role .key
  have hcolon : (sign ":" : Part).scan (programs d).accept none r = none :=
    scan_none_of_closer (by simp [isCloser]) hr none
  exact reaches_shorthand hcs hw hend (hkey.then_none (scan_then_of_first hcolon))
    (scan_none_of_closer (by simp [isCloser]) hr _)

/-- In a pattern, an array reads as an array pattern or not at all. -/
theorem scan_pattern_of_array (hopen : Lexeme.skip cs = '[' :: t) :
    (programs d).accept .pattern cs = arrayPattern.scan (programs d).accept none cs := by
  have hbracket : Opens bracket cs := by simp [Opens, hopen, bracket]
  have hrest : (node .restPattern (then_ (sign "...") (form .pattern)) : Part).scan
      (programs d).accept none cs = none :=
    scan_none_of_apart (by simp [bracket]) hbracket none
  have htarget : targetPath.scan (programs d).accept none cs = none :=
    scan_none_of_apart (by simp [targetPath, any, bracket, identifier, misses_wordExcept_bracket])
      hbracket none
  rw [accept_eq]
  refine (scan_or_of_none hrest).trans ((scan_or_of_none (scan_objectPattern_of_array hopen)).trans ?_)
  cases harray : arrayPattern.scan (programs d).accept none cs with
  | none => exact (scan_or_of_none harray).trans htarget
  | some x => exact scan_or_of_some harray

theorem patternWithDefault_of_array (hopen : Lexeme.skip cs = '[' :: t) (hr : Opens isCloser r)
    (hpattern : arrayPattern.scan (programs d).accept none cs = none ∨
      arrayPattern.Reaches (programs d).accept none cs r) :
    patternWithDefault.scan (programs d).accept none cs = none ∨
      patternWithDefault.Reaches (programs d).accept none cs r := by
  have hsame := scan_pattern_of_array (d := d) hopen
  refine hpattern.imp (fun hnone => ?_) fun ⟨k, hk⟩ => ?_
  · exact scan_grow_of_none (hsame.trans hnone)
  · refine .of_scan ((Grows.stop ?_).scan (hsame.trans hk))
    exact scan_none_of_closer (by simp [isCloser]) hr k

/-- Of an object with one member, the part that reads as a pattern is not assigned to. -/
theorem destructuring_none_of_one (hopen : Lexeme.skip cs = '\x7b' :: t)
    (hname : Lexeme.skip t = w ++ ':' :: u) (hw : Lexeme.isName w = true)
    (hpattern : patternWithDefault.scan (programs d).accept none u = none ∨
      patternWithDefault.Reaches (programs d).accept none u v)
    (hcomma : Lexeme.skip v = ',' :: x) (hclose : Lexeme.skip x = '\x7d' :: r)
    (hr : Opens isCloser r) : (destructuringAssignment s).scan (programs d).accept none cs = none := by
  rcases hpattern with hnone | hreaches
  · -- the brace that would close the pattern is missing
    have hitems : Items d patternMember t (':' :: u) :=
      .last (reaches_patternMember_of_none hname hw hnone)
        (scan_none_at (skip_colon u) (by simp [only]) none)
    have hbrace : (sign "\x7b" : Part).Reaches (programs d).accept none cs t :=
      .of_scan (scan_sign hopen none)
    have hobject : objectPattern.scan (programs d).accept none cs = none := by
      refine scan_node_of_none (hbrace.then_none (hitems.reaches.then_none ?_)) _
      exact scan_none_at (skip_colon u) (by simp [row, only]) none
    have harray : arrayPattern.scan (programs d).accept none cs = none :=
      scan_none_at hopen (by simp [arrayPattern, row, only]) none
    exact scan_node_of_none (scan_then_of_first ((scan_or_of_none hobject).trans harray)) _
  · have hitems : Items d patternMember t x :=
      .more (reaches_patternMember hname hw hreaches) hcomma
        (items_of_closer shut_patternMember hclose (by decide) (by decide))
    exact destructuring_none_of_reaches (reaches_objectPattern hopen hitems hclose).or_left hr

/-- An object of one member, with a comma behind it, is an expression if its value is one
that does not read as a pattern or ends at the same place as one. -/
theorem accept_object_of_one (hopen : Lexeme.skip cs = '\x7b' :: t)
    (hname : Lexeme.skip t = w ++ ':' :: u) (hw : Lexeme.isName w = true)
    (hvalue : ∃ k, (programs d).accept (.expression .closed) u = some (k, v))
    (hpattern : patternWithDefault.scan (programs d).accept none u = none ∨
      patternWithDefault.Reaches (programs d).accept none u v)
    (hcomma : Lexeme.skip v = ',' :: x) (hclose : Lexeme.skip x = '\x7d' :: r)
    (hr : Opens isCloser r) : ∃ k, (programs d).accept (.expression s) cs = some (k, r) := by
  have hbracket : Opens bracket cs := by simp [Opens, hopen, bracket]
  obtain ⟨other, hatom⟩ := exists_atom_of_bracket d
  obtain ⟨k, hk⟩ := accept_object hopen (.more (reaches_member hname hw hvalue) hcomma
    (items_of_closer shut_member hclose (by decide) (by decide))) hclose
  refine ⟨k, accept_expression_of_bracket hbracket hr
    (destructuring_none_of_one hopen hname hw hpattern hcomma hclose hr) ?_⟩
  rw [hatom hbracket]
  exact scan_or_of_some hk

/-! ## Calls and assignments -/

/-- Names as they stand in a text of expressions: without a meaning of their own. -/
structure IsPlainName (w : List Char) : Prop where
  name : Lexeme.isName w = true
  not_new : w ≠ "new".toList
  not_async : "async".toList ≠ w
  not_reserved : w ∉ expressionWords

/-- What opens with a plain name that one of two marks follows. -/
theorem accept_expression_of_name {c : Char} (hcs : Lexeme.skip cs = w ++ c :: t) (hw : IsPlainName w)
    (hc : c = '(' ∨ c = '.') (hplain : Opens plainly cs)
    (hgrows : Grows ((operandSteps s).scan (programs d).accept) (some (.named .identifier)) (c :: t) k r)
    (hr : Opens isCloser r) : (programs d).accept (.expression s) cs = some (k, r) := by
  have hskip : Lexeme.skip (c :: t) = c :: t := by
    rcases hc with rfl | rfl <;> exact Lexeme.skip_cons (by decide) (by decide) t
  have hend : Lexeme.EndsWord (c :: t) := by
    rcases hc with rfl | rfl <;> exact endsWord_of_mark (by decide) (by decide) t
  have hfunction : (word "function" : Part).scan (programs d).accept none (c :: t) = none := by
    rcases hc with rfl | rfl <;> exact scan_none_at hskip (by simp [only]) none
  have harrow : (sign "=>" : Part).scan (programs d).accept none (c :: t) = none := by
    rcases hc with rfl | rfl <;> exact scan_none_at hskip (by simp [only]) none
  refine accept_expression hplain hr (accept_operand hgrows ?_ ?_ ?_)
  · exact arrow_none_of_name hcs hw.name hend hw.not_async hw.not_reserved harrow
  · exact scan_none_of_apart (by simp [destructuringAssignment, objectPattern, arrayPattern, row,
      wordStart_of_mark, Lexeme.isMark]) (opens_name hcs hw.name) none
  · exact accept_name hcs hw.name hend hw.not_new hw.not_reserved hfunction

/-- A call grows the part before it. -/
theorem scan_call {left : Option Kind} (h : (programs d).accept .arguments cs = some (k, r)) :
    (operandSteps s).scan (programs d).accept left cs =
      some (some (.named .callExpression), r) := by
  refine scan_or_of_some (Reaches.scan_around ?_ _ _)
  exact (reaches_form ⟨k, h⟩ left).role .arguments

/-- A call of a name with a quoted text. -/
theorem accept_quoted_call {m : List Char} (hw : IsPlainName w) (hplain : Opens plainly cs)
    (hm : isPlainString m = true) (hcs : Lexeme.skip cs = w ++ '(' :: '\'' :: (m ++ '\'' :: ')' :: r))
    (hr : Opens isCloser r) : ∃ k, (programs d).accept (.expression s) cs = some (k, r) := by
  have hopen : Lexeme.skip ('(' :: '\'' :: (m ++ '\'' :: ')' :: r)) =
      '(' :: '\'' :: (m ++ '\'' :: ')' :: r) :=
    Lexeme.skip_cons (by decide) (by decide) _
  have hquote : Lexeme.skip ('\'' :: (m ++ '\'' :: ')' :: r)) = '\'' :: (m ++ '\'' :: ')' :: r) :=
    Lexeme.skip_cons (by decide) (by decide) _
  have hclose : Lexeme.skip (')' :: r) = ')' :: r := Lexeme.skip_cons (by decide) (by decide) r
  have hcloser : Opens isCloser (')' :: r) := by simp [Opens, hclose, isCloser]
  obtain ⟨k, hk⟩ := accept_quoted (d := d) (s := .closed) hm hquote hcloser
  have hitem : item.Reaches (programs d).accept none ('\'' :: (m ++ '\'' :: ')' :: r)) (')' :: r) :=
    reaches_item (scan_none_at hquote (by simp [only]) none) hk
  obtain ⟨l, hl⟩ := accept_arguments hopen
    (.last hitem (scan_none_at hclose (by simp [only]) none)) hclose
  refine ⟨_, accept_expression_of_name hcs hw (.inl rfl) hplain (.turn (scan_call hl) ?_ (.stop ?_)) hr⟩
  · simp only [List.length_cons, List.length_append]
    omega
  · exact scan_none_of_closer (shut_operandSteps s) hr _

/-- A member named behind an operand grows it. -/
theorem scan_member {left : Option Kind} (hcs : Lexeme.skip cs = '.' :: (v ++ r))
    (hv : Lexeme.isName v = true) (hr : Lexeme.EndsWord r) :
    (operandSteps s).scan (programs d).accept left cs =
      some (some (.named .memberExpression), r) := by
  have hcall : (around .callExpression (some .function) (role .arguments (form .arguments)) : Part).scan
      (programs d).accept left cs = none :=
    scan_none_at hcs (by simp [only, Apart, opener?]) left
  have hdot : (or_ (sign ".") optionalLink : Part).Reaches (programs d).accept left cs (v ++ r) :=
    Reaches.or_left (.of_scan (scan_sign hcs left))
  have hskip : Lexeme.skip (v ++ r) = v ++ r := Lexeme.skip_name hv r
  have hprivate : privateName.scan (programs d).accept left (v ++ r) = none :=
    scan_none_of_apart (by simp [wordStart_of_mark, Lexeme.isMark]) (opens_name hskip hv) left
  have hname : memberName.Reaches (programs d).accept left (v ++ r) r :=
    Reaches.role (.or_right (.of_scan (scan_leaf_word hskip hv hr left)) hprivate) .property
  exact (scan_or_of_none hcall).trans (scan_or_of_some ((hdot.then hname).scan_around _ _))

theorem shut_behind_equals {a : Part} (ha : a ∈ behind s) : a.Shut (Apart (only '=')) (only '=') := by
  have hall : ∀ a ∈ behind s, a.Shut (Apart (only '=')) (only '=') := by
    obtain ⟨x, y, z⟩ := s
    cases x <;>
      simp [behind, row, opt, only, Apart, opener?, memberStep, subscriptStep, nonNullStep,
        templateStep, onLine]
  exact hall a ha

/-- An assignment to a member grows it. -/
theorem scan_assignment (hcs : Lexeme.skip cs = '=' :: ' ' :: u)
    (hvalue : ∃ k, (programs d).accept (.expression s) (' ' :: u) = some (k, r)) :
    (operandSteps s).scan (programs d).accept (some (.named .memberExpression)) cs =
      some (some (.named .assignmentExpression), r) := by
  have hmark : (mark "=" "=>" : Part).Reaches (programs d).accept (some (.named .memberExpression)) cs
      (' ' :: u) :=
    .of_scan (scan_mark hcs (by simp) _)
  have hassign : (around .assignmentExpression (some .left) (then_ (mark "=" "=>")
      (role .right (form (.expression s)))) : Part).scan (programs d).accept
      (some (.named .memberExpression)) cs = some (some (.named .assignmentExpression), r) :=
    (hmark.then ((reaches_form hvalue _).role .right)).scan_around _ _
  unfold operandSteps
  rw [List.append_assoc, scan_any_append (by simp) fun a ha =>
    scan_none_at hcs (shut_behind_equals ha) _]
  exact scan_any_of_first (scan_after (by decide) (scan_or_of_some hassign)) _

/-- A value assigned to a member of a name. -/
theorem accept_member_assignment (hw : IsPlainName w) (hplain : Opens plainly cs)
    (hv : Lexeme.isName v = true) (hcs : Lexeme.skip cs = w ++ '.' :: (v ++ ' ' :: '=' :: ' ' :: u))
    (hvalue : ∃ k, (programs d).accept (.expression s) (' ' :: u) = some (k, r))
    (hr : Opens isCloser r) : ∃ k, (programs d).accept (.expression s) cs = some (k, r) := by
  have hdot : Lexeme.skip ('.' :: (v ++ ' ' :: '=' :: ' ' :: u)) = '.' :: (v ++ ' ' :: '=' :: ' ' :: u) :=
    Lexeme.skip_cons (by decide) (by decide) _
  have hequals : Lexeme.skip (' ' :: '=' :: ' ' :: u) = '=' :: ' ' :: u := by
    rw [Lexeme.skip_gap (by decide), Lexeme.skip_cons (by decide) (by decide)]
  obtain ⟨k, hk⟩ := hvalue
  have hle : r.length ≤ (' ' :: u).length := (programs d).shortens_accept _ _ _ _ hk
  refine ⟨_, accept_expression_of_name hcs hw (.inr rfl) hplain
    (.turn (scan_member hdot hv (endsWord_of_mark (by decide) (by decide) _)) ?_
      (.turn (scan_assignment hequals ⟨k, hk⟩) ?_ (.stop ?_))) hr⟩
  · simp only [List.length_cons, List.length_append]
    omega
  · simp only [List.length_cons] at hle ⊢
    omega
  · exact scan_none_of_closer (shut_operandSteps s) hr _

end Retarget.Syntax.Form
