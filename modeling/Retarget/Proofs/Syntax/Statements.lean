import Retarget.Proofs.Syntax.Accepting
import Retarget.Proofs.Syntax.Phrases

/-!
# Statements of a config

The statements that a config is made of: names that are taken from a module, and a value
that is exported.
-/

namespace Retarget.Syntax.Form

open Rule

variable {d : Dialect} {k : Option Kind} {cs r t u v w : List Char}

/-! ## Expressions as statements -/

/-- An expression with a semicolon behind it. -/
theorem reaches_expressionStatement (h : ∃ k, (programs d).accept (.expression .open_) cs = some (k, t))
    (hstop : Lexeme.skip t = ';' :: r) : expressionStatement.Reaches (programs d).accept none cs r := by
  obtain ⟨k, hk⟩ := h
  have hexpressions : (programs d).accept (.expressions .open_) cs = some (k, t) := by
    rw [accept_eq]
    exact (Grows.stop (scan_none_at hstop (by simp [only]) k)).scan hk
  have hsign : (stop true).Reaches (programs d).accept none t r :=
    Reaches.or_left (.of_scan (scan_sign hstop none))
  exact ((reaches_form ⟨k, hexpressions⟩ none).then hsign).node _

/-- A statement that opens with no word of its own. -/
def plainStatement : Part :=
  .then_ (.unless (any (statementWords.map word))) (.or_ labeledStatement expressionStatement)

/-- Statements of other kinds, apart from declarations, do not open like a module does. -/
theorem exists_statements_before : ∃ before : List Part,
    statementRule = any (before ++ [plainStatement]) ∧
      ∀ a ∈ before, a = .form .declaration ∨ a.Shut (Apart (only 'm')) (only 'm') := by
  refine ⟨[_, _, _, _, _, _, _, _, _, _, _, _, _, _, _, _, _, _], rfl, ?_⟩
  simp [bracedStatement, exportStatement, importStatement, forInStatement, forStatement,
    switchStatement, tryStatement, jump, row, opt, any, only, Apart, opener?]

/-- No declaration opens with a member of a module. -/
theorem declaration_none_of_module (hcs : Lexeme.skip cs = "module".toList ++ '.' :: t) :
    (programs d).accept .declaration cs = none := by
  have hdot : Lexeme.skip ('.' :: t) = '.' :: t := Lexeme.skip_cons (by decide) (by decide) t
  have hend : Lexeme.EndsWord ('.' :: t) := endsWord_of_mark (by decide) (by decide) t
  have hword : (word "module" : Part).Reaches (programs d).accept none cs ('.' :: t) :=
    .of_scan (scan_word hcs (by decide) hend none)
  have hnamed : (or_ string moduleName).scan (programs d).accept none ('.' :: t) = none :=
    scan_none_at hdot (by
      simp [string, moduleName, dottedName, boundName, row, only,
        Lexeme.misses_word (wordless_only (c := '.') (by decide) (by decide))]) none
  have hshut {a : Part} (ha : a.Shut (Apart (only 'm')) (only 'm')) :
      a.scan (programs d).accept none cs = none :=
    scan_none_at (c := 'm') hcs ha none
  rw [accept_eq]
  refine scan_any_of_none ?_
  simp only [List.forall_mem_cons]
  refine ⟨hshut ?_, hshut ?_, hshut ?_, hshut ?_, hshut ?_, hshut ?_, hshut ?_, hshut ?_,
    ?_, hshut ?_, hshut ?_, ?_⟩
  · simp [functionDeclaration, functionSignature, any, row, opt, only]
  · simp [classDeclaration, any, row, opt, only, Apart, opener?]
  · simp [lexicalDeclaration, only]
  · simp [variableDeclaration, only]
  · simp [enumDeclaration, row, opt, only]
  · simp [interfaceDeclaration, row, only]
  · simp [typeAlias, row, only]
  · simp [internalModule, row, only]
  · exact scan_node_of_none (hword.then_none (scan_then_of_first hnamed)) _
  · simp [importAlias, row, only]
  · simp [ambientDeclaration, only]
  · simp

/-- A value exported by a module is a statement. -/
theorem accept_export (hv : Lexeme.isName v = true)
    (hcs : Lexeme.skip cs = "module".toList ++ '.' :: (v ++ ' ' :: '=' :: ' ' :: u))
    (hvalue : ∃ k, (programs d).accept (.expression .open_) (' ' :: u) = some (k, ';' :: r)) :
    ∃ k, (programs d).accept .statement cs = some (k, r) := by
  have hsemicolon : Lexeme.skip (';' :: r) = ';' :: r := Lexeme.skip_cons (by decide) (by decide) r
  have hcloser : Opens isCloser (';' :: r) := by simp [Opens, hsemicolon, isCloser]
  have hmodule : IsPlainName "module".toList := ⟨by decide, by decide, by decide, by decide⟩
  have hexpression := accept_member_assignment (s := .open_) hmodule
    (by simp [Opens, hcs, plainly]) hv hcs hvalue hcloser
  have hlabel : labeledStatement.scan (programs d).accept none cs = none := by
    have hdot : Lexeme.skip ('.' :: (v ++ ' ' :: '=' :: ' ' :: u)) = '.' :: (v ++ ' ' :: '=' :: ' ' :: u) :=
      Lexeme.skip_cons (by decide) (by decide) _
    have hname : (role .label (leaf .statementIdentifier (Lexeme.wordExcept expressionWords)) : Part).Reaches
        (programs d).accept none cs ('.' :: (v ++ ' ' :: '=' :: ' ' :: u)) :=
      Reaches.role (.of_scan (scan_leaf_wordExcept hcs hmodule.name
        (endsWord_of_mark (by decide) (by decide) _) hmodule.not_reserved none)) .label
    exact scan_node_of_none (hname.then_none (scan_then_of_first
      (scan_none_at hdot (by simp [only]) none))) _
  have hwords : (any (statementWords.map word) : Part).scan (programs d).accept none cs = none :=
    scan_none_at (c := 'm') hcs (by simp [statementWords, any, only]) none
  have hplain : plainStatement.Reaches (programs d).accept none cs r :=
    (reaches_unless hwords).then
      ((reaches_expressionStatement hexpression hsemicolon).or_right hlabel)
  obtain ⟨before, hrule, hbefore⟩ := exists_statements_before
  refine exists_accept ?_
  rw [programs, hrule]
  obtain ⟨k, hk⟩ := hplain
  refine ⟨k, (scan_any_append (by simp) fun a ha => ?_).trans hk⟩
  rcases hbefore a ha with rfl | hshut
  · exact declaration_none_of_module hcs
  · exact scan_none_at (c := 'm') hcs hshut none

/-! ## Names taken from a module -/

/-- Names with commas between them are members of a pattern. -/
theorem items_of_names {ws : List (List Char)} (hws : ws ≠ []) (hnames : ∀ w ∈ ws, Lexeme.isName w = true)
    (hr : Lexeme.skip (' ' :: r) = '\x7d' :: t) :
    Items d patternMember (' ' :: ([',', ' '].intercalate ws ++ ' ' :: r)) (' ' :: r) := by
  induction ws with
  | nil => exact absurd rfl hws
  | cons w ws ih =>
    have hw : Lexeme.isName w = true := hnames w List.mem_cons_self
    have hskip (t : List Char) : Lexeme.skip (' ' :: (w ++ t)) = w ++ t := by
      rw [Lexeme.skip_gap (by decide), Lexeme.skip_name hw]
    cases ws with
    | nil =>
      have hcloser : Opens isCloser (' ' :: r) := by simp [Opens, hr, isCloser]
      rw [List.intercalate_singleton]
      exact .last (reaches_patternMember_of_name (hskip _) hw
        (endsWord_of_mark (by decide) (by decide) _) hcloser) (scan_none_at hr (by simp [only]) none)
    | cons w' ws =>
      have hcomma (t : List Char) : Lexeme.skip (',' :: t) = ',' :: t :=
        Lexeme.skip_cons (by decide) (by decide) t
      have hcloser (t : List Char) : Opens isCloser (',' :: t) := by simp [Opens, hcomma, isCloser]
      rw [List.intercalate_cons_cons]
      simp only [List.append_assoc, List.cons_append, List.nil_append]
      exact .more (reaches_patternMember_of_name (hskip _) hw
        (endsWord_of_mark (by decide) (by decide) _) (hcloser _)) (hcomma _)
        (ih (List.cons_ne_nil _ _) fun x hx => hnames x (List.mem_cons_of_mem _ hx))

/-- Names that are taken from a value. -/
theorem accept_taking (hcs : Lexeme.skip cs = "const".toList ++ ' ' :: '\x7b' :: t)
    (hitems : Items d patternMember t r) (hclose : Lexeme.skip r = '\x7d' :: v)
    (hequals : Lexeme.skip v = '=' :: ' ' :: u)
    (hvalue : ∃ k, (programs d).accept (.expression .open_) (' ' :: u) = some (k, ';' :: w)) :
    ∃ k, (programs d).accept .statement cs = some (k, w) := by
  have hblank : Lexeme.EndsWord (' ' :: '\x7b' :: t) := endsWord_of_mark (by decide) (by decide) _
  have hbrace : Lexeme.skip (' ' :: '\x7b' :: t) = '\x7b' :: t := by
    rw [Lexeme.skip_gap (by decide), Lexeme.skip_cons (by decide) (by decide)]
  have hsemicolon : Lexeme.skip (';' :: w) = ';' :: w := Lexeme.skip_cons (by decide) (by decide) w
  have hbinding : (role .name binding : Part).Reaches (programs d).accept none (' ' :: '\x7b' :: t) v :=
    Reaches.role (reaches_objectPattern hbrace hitems hclose).or_left .name
  have htype : (opt (role .typeOf typeMark) : Part).Reaches (programs d).accept none v v :=
    reaches_opt_of_none (scan_none_at hequals (by simp [typeMark, only]) none)
  have hmark : (mark "=" "=>" : Part).Reaches (programs d).accept none v (' ' :: u) :=
    .of_scan (scan_mark hequals (by simp) _)
  have hinitial : (opt (initializer .open_)).Reaches (programs d).accept none v (';' :: w) :=
    (hmark.then ((reaches_form hvalue none).role .value)).opt
  have hdeclarator : (declarator .open_).Reaches (programs d).accept none
      (' ' :: '\x7b' :: t) (';' :: w) := by
    refine ((hbinding.then (htype.then hinitial)).or_right ?_).node _
    exact scan_none_at hbrace (by
      simp [boundName, row, only,
        Lexeme.misses_word (wordless_only (c := '\x7b') (by decide) (by decide))]) none
  have hmore : Repeats ((then_ (sign ",") (declarator .open_)).scan (programs d).accept none)
      (';' :: w) (';' :: w) :=
    .stop (scan_none_at hsemicolon (by simp [only]) none)
  have hstop : (or_ (stop true) (stop false)).Reaches (programs d).accept none (';' :: w) w :=
    Reaches.or_left (.or_left (.of_scan (scan_sign hsemicolon none)))
  have hlet : (word "let" : Part).scan (programs d).accept none cs = none :=
    scan_none_at (c := 'c') hcs (by simp [only]) none
  have hconst : (word "const" : Part).Reaches (programs d).accept none cs (' ' :: '\x7b' :: t) :=
    .of_scan (scan_word hcs (by decide) hblank none)
  have hlexical : lexicalDeclaration.Reaches (programs d).accept none cs w :=
    (((hconst.or_right hlet).role .kind).then ((hdeclarator.then hmore.reaches).then hstop)).node _
  have hshut {a : Part} (ha : a.Shut (Apart (only 'c')) (only 'c')) :
      a.scan (programs d).accept none cs = none :=
    scan_none_at (c := 'c') hcs ha none
  have hdecorators : (many (role .decorator (form .decorator)) : Part).Reaches (programs d).accept
      none cs cs :=
    (Repeats.stop (hshut (by simp [Apart, only, opener?]))).reaches
  have hclass : classDeclaration.scan (programs d).accept none cs = none := by
    refine (scan_or_of_none ?_).trans ?_
    · exact scan_node_of_none (hdecorators.then_none (scan_then_of_first
        (scan_word_of_ne hcs (by decide) hblank (by decide) none))) _
    · exact scan_node_of_none (hdecorators.then_none (hshut (by simp [row, only]))) _
  have hdeclaration : ∃ k, (programs d).accept .declaration cs = some (k, w) := by
    refine exists_accept (.or_right (.or_right hlexical.or_left hclass) (hshut ?_))
    simp [functionDeclaration, functionSignature, any, row, opt, only]
  refine exists_accept (.or_right (.or_right (.or_right (.or_right
    (reaches_form hdeclaration none).or_left (hshut ?_)) (hshut ?_)) (hshut ?_)) (hshut ?_))
  · simp [importStatement, row, only]
  · simp [exportStatement, only, Apart, opener?]
  · simp [only]
  · simp [bracedStatement, only]

/-- Names that are taken from a module. -/
theorem accept_requirement {ws : List (List Char)} {m : List Char} (hws : ws ≠ [])
    (hnames : ∀ w ∈ ws, Lexeme.isName w = true) (hm : isPlainString m = true)
    (hcs : Lexeme.skip cs = "const \x7b ".toList ++ ([',', ' '].intercalate ws ++
      (" \x7d = require('".toList ++ (m ++ "');".toList ++ r)))) :
    ∃ k, (programs d).accept .statement cs = some (k, r) := by
  have hrequire : IsPlainName "require".toList := ⟨by decide, by decide, by decide, by decide⟩
  have hclose (t : List Char) : Lexeme.skip (' ' :: '\x7d' :: t) = '\x7d' :: t := by
    rw [Lexeme.skip_gap (by decide), Lexeme.skip_cons (by decide) (by decide)]
  have hequals (t : List Char) : Lexeme.skip (' ' :: '=' :: t) = '=' :: t := by
    rw [Lexeme.skip_gap (by decide), Lexeme.skip_cons (by decide) (by decide)]
  have hskip (t : List Char) : Lexeme.skip (' ' :: ("require".toList ++ t)) = "require".toList ++ t := by
    rw [Lexeme.skip_gap (by decide), Lexeme.skip_name hrequire.name]
  have hsemicolon : Opens isCloser (';' :: r) := by
    simp [Opens, Lexeme.skip_cons (c := ';') (by decide) (by decide), isCloser]
  have hvalue := accept_quoted_call (d := d) (s := .open_) (r := ';' :: r) hrequire
    (by rw [Opens, hskip]; rfl) hm (hskip _) hsemicolon
  refine accept_taking ?_ (items_of_names hws hnames (hclose _)) (hclose _) (hequals _) hvalue
  rw [hcs]
  simp

/-! ## Programs -/

/-- The end of a text. -/
def atEnd : Heads :=
  fun o => o = none

/-- The forms that do not fit at the end of a text: statements, declarations and all that does
not fit where a mark closes what it stands in. -/
def EndsAlways (x : Form) : Prop :=
  x = statement ∨ x = declaration ∨ x.IsClosed

theorem shut_end (d : Dialect) {x : Form} (hx : x.EndsAlways) :
    (programs d x).Shut EndsAlways atEnd := by
  have hclosed {x : Form} (h : x.IsClosed) : x.EndsAlways := .inr (.inr h)
  have hexpressions (s : Setting) : (expressions s).EndsAlways := hclosed trivial
  have hdecorator : decorator.EndsAlways := hclosed rfl
  have hblock : block.EndsAlways := hclosed rfl
  have hdeclaration : declaration.EndsAlways := .inr (.inl rfl)
  have hlabel : Misses atEnd (Lexeme.wordExcept expressionWords) :=
    Lexeme.misses_wordExcept (fun c hc => by simp [atEnd] at hc) _
  rcases hx with rfl | rfl | hx
  · simp [programs, statementRule, any, row, opt, bracedStatement, exportStatement, importStatement,
      forInStatement, forStatement, switchStatement, tryStatement, jump, labeledStatement,
      expressionStatement, statementWords, atEnd, hlabel, hexpressions, hdecorator, hdeclaration,
      hblock]
  · simp [programs, declarationRule, any, row, opt, functionDeclaration, functionSignature,
      classDeclaration, lexicalDeclaration, variableDeclaration, enumDeclaration,
      interfaceDeclaration, typeAlias, internalModule, importAlias, ambientDeclaration, atEnd, hdecorator]
  · exact (shut_mono (fun _ => hclosed) (fun o ho => by simp_all [atEnd, isCloser])
      (programs d x)).1 (shut_closed d x hx)

/-- At the end of a text there is no statement. -/
theorem statement_none_of_end (hcs : Lexeme.skip cs = []) : (programs d).accept .statement cs = none :=
  Grammar.accept_eq_none (fun _ => shut_end d) (.inl rfl) (by simp [Opens, atEnd, hcs])

/-- A text is a program if statements lead to its end. -/
theorem accept_program (hhead : cs.head? ≠ some '#')
    (h : Repeats ((programs d).accept .statement) cs r) (hr : Lexeme.skip r = []) :
    ∃ tree, d.parseChars cs = .ok tree := by
  have hscan : Lexeme.hashBang cs = none := by
    unfold Lexeme.hashBang
    split <;> simp_all
  have hbang : (opt (.glued (.named .hashBangLine) Lexeme.hashBang) : Part).Reaches
      (programs d).accept none cs cs :=
    reaches_opt_of_none (by simp [scan, hscan])
  obtain ⟨k, hk⟩ := exists_accept (x := .program) (hbang.then (reaches_many_form h none))
  exact (parses_iff d cs).mpr ⟨k, r, hk, hr⟩

end Retarget.Syntax.Form
