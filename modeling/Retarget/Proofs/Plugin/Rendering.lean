import Retarget.Proofs.Path.Archive
import Retarget.Proofs.Plugin.Imports
import Retarget.Proofs.Plugin.RoundTrip
import Retarget.Proofs.Syntax.Statements

/-!
# A rendered config is a program

A rendered config consists of statements that take classes from modules, a comment, and one
exported value: a list of instances.  `Tidy` names what keeps the texts of a profile inside
their places, and `IsArguments` says of a fragment that it reads as the arguments of a call.
With both, the rendered text is a program (`rendered_config_parses`); validation alone does
not see to it (`rendered_config_broken`).
-/

namespace Retarget

open Syntax

/-! ## Valid profiles -/

namespace Profile

variable {p : Profile} {x : Plugin} {xs : List Plugin} {seen : List String} {s : String}

theorem pluginFlaw_of_validate (h : p.validate = .ok ()) : pluginFlaw [] p.plugins = none := by
  have hflaw := flaw?_of_validate h
  unfold flaw? at hflaw
  repeat' split at hflaw
  all_goals first | cases hflaw | exact hflaw

/-- Without a flaw, classes are identifiers and modules can be quoted. -/
theorem named_of_pluginFlaw (h : pluginFlaw seen xs = none) (hx : x ∈ xs) :
    isIdentifier x.className = true ∧ isModuleName x.moduleName = true := by
  induction xs generalizing seen with
  | nil => cases hx
  | cons y ys ih =>
    simp only [pluginFlaw] at h
    split_ifs at h with _ hclass hmodule _
    rcases List.mem_cons.mp hx with rfl | hx
    · exact ⟨by simpa using hclass, by simpa using hmodule⟩
    · exact ih h hx

theorem isName_of_isIdentifier (h : isIdentifier s = true) : Lexeme.isName s.toList = true := by
  have hopens {c : Char} (hc : opensIdentifier c = true) : Lexeme.isWordStart c = true := by
    simp only [opensIdentifier, Bool.or_eq_true, decide_eq_true_eq] at hc
    rcases hc with (hc | rfl) | rfl
    · have hdigit : c.isDigit = false := by
        rw [← Bool.not_eq_true]
        intro hdigit
        have hletter := Lexeme.toNat_of_isAlpha hc
        have hdigit := Lexeme.toNat_of_isDigit hdigit
        omega
      simp [Lexeme.isWordStart, Lexeme.isWordChar, Char.isAlphanum, hc, hdigit]
    · decide
    · decide
  unfold isIdentifier at h
  split at h
  · cases h
  · next c rest hs =>
    rw [hs]
    simp only [Bool.and_eq_true, List.all_eq_true, Bool.or_eq_true] at h
    simp only [Lexeme.isName, Bool.and_eq_true, List.all_eq_true]
    refine ⟨hopens h.1, fun c hc => ?_⟩
    rcases h.2 c hc with hc | hc
    · exact (Bool.and_eq_true_iff.mp (hopens hc)).1
    · simp [Lexeme.isWordChar, Char.isAlphanum, hc]

end Profile

/-! ## The parts of a rendered config -/

namespace Syntax.Form

/-- A text that reads as the arguments of a call, whatever follows the next line break. -/
def IsArguments (d : Dialect) (f : List Char) : Prop :=
  ∀ u, ∃ k, (programs d).accept .arguments ('(' :: (f ++ ')' :: ',' :: '\n' :: u)) =
    some (k, ',' :: '\n' :: u)

end Syntax.Form

namespace PluginConfig

open Syntax.Form Rule

variable {c : PluginConfig} {e : Extracted} {d : Dialect} {x : Plugin} {xs : List Plugin}
  {cs r t u : List Char}

/-- The texts of a config that keep to their places: no escape and no line break in the name of
a module, no class that is a word of the language, and comments that end with their lines. -/
structure Tidy (c : PluginConfig) : Prop where
  modules : ∀ x ∈ c.plugins, x.moduleName.toList.all fun a => a != '\\' && a != '\r' = true
  classes : ∀ x ∈ c.plugins, x.className.toList ∉ "new".toList :: expressionWords
  header : ∀ h ∈ c.header, ∀ l ∈ Text.lines h, l.toList.all Lexeme.isInLine = true
  fallbacks : ∀ x ∈ c.plugins, ∀ h ∈ x.fallback, ∀ l ∈ Text.lines h, l.toList.all Lexeme.isInLine = true

/-- What stands in the parentheses of a plugin. -/
def given (x : Plugin) : Option Fragment → String
  | some f => f.text
  | none =>
    match x.fallback with
    | none => ""
    | some comment => "\x7b\n" ++ commentLines "      " comment ++ "    \x7d"

theorem entry_eq (x : Plugin) (f : Option Fragment) :
    entry x f = "    new " ++ x.className ++ "(" ++ given x f ++ "),\n" := by
  apply String.toList_injective
  cases f with
  | some f =>
    by_cases hempty : f.isEmpty = true
    · have htext : f.text = "" := of_decide_eq_true hempty
      simp [entry, given, hempty, htext]
    · simp [entry, given, hempty]
  | none =>
    cases hfallback : x.fallback with
    | none => simp [entry, given, hfallback]
    | some comment => simp [entry, given, hfallback]

/-- Comments do not matter where every line of them ends. -/
theorem skip_commentLines {indent text : String} (hindent : indent.toList.all Lexeme.isGap = true)
    (hlines : ∀ l ∈ Text.lines text, l.toList.all Lexeme.isInLine = true) (r : List Char) :
    Lexeme.skip ((commentLines indent text).toList ++ r) = Lexeme.skip r := by
  unfold commentLines
  generalize Text.lines text = lines at hlines
  induction lines with
  | nil => rfl
  | cons l lines ih =>
    have hline : (' ' :: l.toList).all Lexeme.isInLine = true := by
      rw [List.all_cons, hlines l List.mem_cons_self]
      rfl
    rw [List.map_cons, String.join_cons]
    simp only [String.toList_append, List.append_assoc]
    rw [Lexeme.skip_gaps hindent]
    exact (Lexeme.skip_comment hline _).trans (ih fun x hx => hlines x (List.mem_cons_of_mem _ hx))

/-! ## Arguments -/

theorem opens_paren (t : List Char) : Opens isCloser (')' :: t) := by
  simp [Opens, Lexeme.skip_cons (c := ')') (by decide) (by decide), isCloser]

theorem isArguments_nil : IsArguments d [] := by
  intro u
  have hopen (t : List Char) : Lexeme.skip ('(' :: t) = '(' :: t :=
    Lexeme.skip_cons (by decide) (by decide) t
  have hclose (t : List Char) : Lexeme.skip (')' :: t) = ')' :: t :=
    Lexeme.skip_cons (by decide) (by decide) t
  exact accept_arguments (hopen _)
    (items_of_closer shut_item (hclose _) (by decide) (by decide)) (hclose _)

/-- An expression is an argument. -/
theorem isArguments_of_expression {f : List Char} {a : Char} (ha : a ≠ '.')
    (hhead : ∀ u, Opens (only a) (f ++ ')' :: u))
    (h : ∀ u, ∃ k, (programs d).accept (.expression .closed) (f ++ ')' :: u) = some (k, ')' :: u)) :
    IsArguments d f := by
  intro u
  have hopen (t : List Char) : Lexeme.skip ('(' :: t) = '(' :: t :=
    Lexeme.skip_cons (by decide) (by decide) t
  have hclose (t : List Char) : Lexeme.skip (')' :: t) = ')' :: t :=
    Lexeme.skip_cons (by decide) (by decide) t
  obtain ⟨k, hk⟩ := h (',' :: '\n' :: u)
  have hitem := reaches_item (scan_none_of_apart (by simp [only, ha.symm]) (hhead _) none) hk
  exact accept_arguments (hopen _) (.last hitem (scan_none_at (hclose _) (by simp [only]) none))
    (hclose _)

/-- An object of comments is an argument. -/
theorem isArguments_comments {comment : String}
    (hlines : ∀ l ∈ Text.lines comment, l.toList.all Lexeme.isInLine = true) :
    IsArguments d ("\x7b\n" ++ commentLines "      " comment ++ "    \x7d").toList := by
  have hopen (t : List Char) : Lexeme.skip ('\x7b' :: t) = '\x7b' :: t :=
    Lexeme.skip_cons (by decide) (by decide) t
  have hclose (u : List Char) :
      Lexeme.skip ('\n' :: ((commentLines "      " comment).toList ++ ("    \x7d".toList ++ u))) =
        '\x7d' :: u := by
    rw [Lexeme.skip_gap (by decide), skip_commentLines (by decide) hlines]
    have hindent : "    ".toList.all Lexeme.isGap = true := by decide
    exact (Lexeme.skip_gaps hindent _).trans (Lexeme.skip_cons (by decide) (by decide) u)
  have htext (u : List Char) :
      ("\x7b\n" ++ commentLines "      " comment ++ "    \x7d").toList ++ ')' :: u =
        '\x7b' :: '\n' :: ((commentLines "      " comment).toList ++ ("    \x7d".toList ++ ')' :: u)) := by
    simp only [String.toList_append, List.append_assoc]
    rfl
  refine isArguments_of_expression (a := '\x7b') (by decide) (fun u => ?_) fun u => ?_
  · rw [htext, Opens, hopen]
    simp [only]
  · rw [htext]
    exact accept_bare_object (hopen _) (hclose _) (opens_paren u)

/-! ## The list of instances -/

/-- The texts of plugins that read as instances. -/
def Instantiable (d : Dialect) (e : Extracted) (x : Plugin) : Prop :=
  Lexeme.isName x.className.toList = true ∧
    x.className.toList ∉ "new".toList :: expressionWords ∧
    IsArguments d (given x (e.get? x.callee)).toList

/-- The entries of plugins. -/
def entries (e : Extracted) (xs : List Plugin) : List Char :=
  (String.join (xs.map fun x => entry x (e.get? x.callee))).toList

/-- Entries open with an instance. -/
theorem skip_entries_cons (e : Extracted) (x : Plugin) (xs : List Plugin) (r : List Char) :
    Lexeme.skip ('\n' :: (entries e (x :: xs) ++ r)) = "new".toList ++ ' ' :: (x.className.toList ++
      '(' :: ((given x (e.get? x.callee)).toList ++ ')' :: ',' :: '\n' :: (entries e xs ++ r))) := by
  have htext : entries e (x :: xs) ++ r = "    ".toList ++ ("new".toList ++ ' ' ::
      (x.className.toList ++ '(' :: ((given x (e.get? x.callee)).toList ++
        ')' :: ',' :: '\n' :: (entries e xs ++ r)))) := by
    simp [entries, entry_eq, String.join_cons]
  rw [Lexeme.skip_gap (by decide), htext, Lexeme.skip_gaps (by decide), Lexeme.skip_name (by decide)]

/-- An entry of a plugin that reads as an instance is an expression. -/
theorem accept_entry (hx : Instantiable d e x) (hcs : Lexeme.skip cs = "new".toList ++ ' ' ::
      (x.className.toList ++ '(' :: ((given x (e.get? x.callee)).toList ++ ')' :: ',' :: '\n' :: u))) :
    ∃ k, (programs d).accept (.expression .closed) cs = some (k, ',' :: '\n' :: u) := by
  obtain ⟨hname, hfree, hgiven⟩ := hx
  obtain ⟨hnew, hreserved⟩ : x.className.toList ≠ "new".toList ∧
      x.className.toList ∉ expressionWords := by
    simpa using hfree
  have hcomma (t : List Char) : Lexeme.skip (',' :: t) = ',' :: t :=
    Lexeme.skip_cons (by decide) (by decide) t
  obtain ⟨k, hk⟩ := hgiven u
  exact accept_instance hcs hname hnew hreserved hk (by simp [Opens, hcomma, isCloser])

/-- The entries of plugins are the items of a list. -/
theorem items_of_entries (hxs : ∀ x ∈ xs, Instantiable d e x) (hr : Lexeme.skip r = ']' :: u) :
    Items d item ('\n' :: (entries e xs ++ r)) ('\n' :: r) := by
  have hbreak (t : List Char) : Lexeme.skip ('\n' :: t) = Lexeme.skip t :=
    Lexeme.skip_gap (by decide) t
  induction xs with
  | nil => exact items_of_closer shut_item ((hbreak r).trans hr) (by decide) (by decide)
  | cons x xs ih =>
    have hcomma (t : List Char) : Lexeme.skip (',' :: t) = ',' :: t :=
      Lexeme.skip_cons (by decide) (by decide) t
    have hinstance := skip_entries_cons e x xs r
    obtain ⟨k, hk⟩ := accept_entry (hxs x List.mem_cons_self) hinstance
    have hspread : (sign "..." : Part).scan (programs d).accept none
        ('\n' :: (entries e (x :: xs) ++ r)) = none :=
      scan_none_at (c := 'n') hinstance (by simp [only]) none
    exact .more (reaches_item hspread hk) (hcomma _) (ih fun y hy => hxs y (List.mem_cons_of_mem _ hy))

/-- The list of instances is an expression, and it reads as a pattern as a whole or not at all. -/
theorem accept_instances (hxs : ∀ x ∈ xs, Instantiable d e x) (hr : Lexeme.skip r = ']' :: u)
    (hcs : Lexeme.skip cs = '[' :: '\n' :: (entries e xs ++ r)) (hu : Opens isCloser u) :
    (∃ k, (programs d).accept (.expression .closed) cs = some (k, u)) ∧
      (patternWithDefault.scan (programs d).accept none cs = none ∨
        patternWithDefault.Reaches (programs d).accept none cs u) := by
  have hclose : Lexeme.skip ('\n' :: r) = ']' :: u := (Lexeme.skip_gap (by decide) r).trans hr
  have hpattern : arrayPattern.scan (programs d).accept none cs = none ∨
      arrayPattern.Reaches (programs d).accept none cs u := by
    cases xs with
    | nil => exact .inr (reaches_arrayPattern_nil hcs hclose)
    | cons x xs =>
      exact .inl (arrayPattern_none_of_instance hcs (skip_entries_cons e x xs r)
        (hxs x List.mem_cons_self).1)
  exact ⟨accept_array_expression hcs (items_of_entries hxs hr) hclose hu hpattern,
    patternWithDefault_of_array hcs hu hpattern⟩

/-- The value that a rendered config exports. -/
theorem accept_exports (hxs : ∀ x ∈ xs, Instantiable d e x)
    (hcs : Lexeme.skip cs = "module.exports = \x7b\n  plugins: [\n".toList ++
      (entries e xs ++ "  ],\n\x7d;\n".toList)) :
    ∃ k, (programs d).accept .statement cs = some (k, ['\n']) := by
  have hlist : Lexeme.skip (" [\n".toList ++ (entries e xs ++ "  ],\n\x7d;\n".toList)) =
      '[' :: '\n' :: (entries e xs ++ "  ],\n\x7d;\n".toList) :=
    (Lexeme.skip_gap (by decide) _).trans (Lexeme.skip_cons (by decide) (by decide) _)
  have hindent : "\n  ".toList.all Lexeme.isGap = true := by decide
  have hname : Lexeme.skip ("\n  plugins: [\n".toList ++ (entries e xs ++ "  ],\n\x7d;\n".toList)) =
      "plugins".toList ++ ':' :: (" [\n".toList ++ (entries e xs ++ "  ],\n\x7d;\n".toList)) :=
    (Lexeme.skip_gaps hindent _).trans (Lexeme.skip_name (w := "plugins".toList) (by decide) _)
  have hopen : Lexeme.skip (" \x7b\n  plugins: [\n".toList ++
      (entries e xs ++ "  ],\n\x7d;\n".toList)) =
        '\x7b' :: ("\n  plugins: [\n".toList ++ (entries e xs ++ "  ],\n\x7d;\n".toList)) :=
    (Lexeme.skip_gap (by decide) _).trans (Lexeme.skip_cons (by decide) (by decide) _)
  have hcomma : Lexeme.skip ",\n\x7d;\n".toList = ',' :: "\n\x7d;\n".toList := by decide
  have hbrace : Lexeme.skip "\n\x7d;\n".toList = '\x7d' :: ";\n".toList := by decide
  obtain ⟨hvalue, hpattern⟩ := accept_instances (u := ",\n\x7d;\n".toList) hxs (by decide) hlist
    (by unfold Opens; decide)
  exact accept_export (v := "exports".toList) (by decide) hcs (accept_object_of_one hopen hname
    (by decide) hvalue hpattern hcomma hbrace (by unfold Opens; decide))

/-! ## Modules -/

/-- Modules are loaded for plugins, each with some of their classes. -/
theorem sourced_of_mem_imports {m : String × List String} (hm : m ∈ c.imports) :
    (∃ x ∈ c.plugins, x.moduleName = m.1) ∧ m.2 ≠ [] ∧
      ∀ n ∈ m.2, ∃ x ∈ c.plugins, x.className = n := by
  obtain ⟨hne, htaken⟩ := (binds_imports c).taken m hm
  obtain ⟨n, hn⟩ := List.exists_mem_of_ne_nil _ hne
  obtain ⟨x, hx, -, hmodule⟩ := (htaken.mem_iff n).mp hn
  refine ⟨⟨x, hx, hmodule⟩, hne, ?_⟩
  intro n hn
  obtain ⟨y, hy, hclass, -⟩ := (htaken.mem_iff n).mp hn
  exact ⟨y, hy, hclass⟩

/-- The statements that load modules lead to what follows them. -/
theorem repeats_imports {loads : List (String × List String)}
    (hloads : ∀ m ∈ loads, isPlainString m.1.toList = true ∧ m.2 ≠ [] ∧
      ∀ n ∈ m.2, Lexeme.isName n.toList = true)
    (hrest : ∀ cs, Lexeme.skip cs = Lexeme.skip t → Repeats ((programs d).accept .statement) cs r)
    (hcs : Lexeme.skip cs = Lexeme.skip
      ((String.join (loads.map fun m => importLine m.1 m.2)).toList ++ t)) :
    Repeats ((programs d).accept .statement) cs r := by
  induction loads generalizing cs with
  | nil => exact hrest cs hcs
  | cons m loads ih =>
    obtain ⟨hmodule, hne, hnames⟩ := hloads m List.mem_cons_self
    have hline : (String.join ((m :: loads).map fun m => importLine m.1 m.2)).toList ++ t =
        "const \x7b ".toList ++ ([',', ' '].intercalate (m.2.map String.toList) ++
          (" \x7d = require('".toList ++ (m.1.toList ++ "');".toList ++
            '\n' :: ((String.join (loads.map fun m => importLine m.1 m.2)).toList ++ t)))) := by
      simp [importLine, String.join_cons, String.toList_intercalate]
    have hopens : Lexeme.skip cs = "const \x7b ".toList ++
        ([',', ' '].intercalate (m.2.map String.toList) ++ (" \x7d = require('".toList ++
          (m.1.toList ++ "');".toList ++
            '\n' :: ((String.join (loads.map fun m => importLine m.1 m.2)).toList ++ t)))) := by
      rw [hcs, hline]
      exact Lexeme.skip_cons (c := 'c') (by decide) (by decide) _
    obtain ⟨k, hk⟩ := accept_requirement (d := d) (by simpa using hne)
      (List.forall_mem_map.mpr hnames) hmodule hopens
    have hmore := ih (fun x hx => hloads x (List.mem_cons_of_mem _ hx))
      (Lexeme.skip_gap (c := '\n') (by decide) _)
    refine .turn hk ?_ hmore
    have hle := Lexeme.length_skip_le cs
    rw [hopens, List.length_append, List.length_append, List.length_append, List.length_append] at hle
    have hlong : 0 < "const \x7b ".toList.length := by decide
    omega

/-- The text between the modules and the value. -/
def headline (c : PluginConfig) : String :=
  (if c.imports.isEmpty then "" else "\n") ++
    (match c.header with
      | some h => commentLines "" h ++ "\n"
      | none => "")

/-- Nothing but a comment stands between the modules and the value. -/
theorem skip_headline (hc : c.Tidy) (r : List Char) :
    Lexeme.skip (c.headline.toList ++ r) = Lexeme.skip r := by
  have hblank (cs : List Char) :
      Lexeme.skip ((if c.imports.isEmpty then "" else "\n").toList ++ cs) = Lexeme.skip cs := by
    split
    · rfl
    · exact Lexeme.skip_gap (by decide) cs
  rw [headline, String.toList_append, List.append_assoc, hblank]
  cases hheader : c.header with
  | none => rfl
  | some h =>
    simp only [String.toList_append, List.append_assoc]
    rw [skip_commentLines (by decide) (hc.header h hheader)]
    exact Lexeme.skip_gap (by decide) r

/-! ## The whole text -/

/-- The text of the value that a config exports. -/
def exported (e : Extracted) (xs : List Plugin) : List Char :=
  "module.exports = \x7b\n  plugins: [\n".toList ++ (entries e xs ++ "  ],\n\x7d;\n".toList)

theorem contents_toList (c : PluginConfig) (e : Extracted) : (c.contents e).toList =
    (String.join (c.imports.map fun m => importLine m.1 m.2)).toList ++
      (c.headline.toList ++ exported e c.plugins) := by
  have hparts : c.contents e = String.join (c.imports.map fun m => importLine m.1 m.2) ++ c.headline ++
      "module.exports = \x7b\n  plugins: [\n" ++
      String.join (c.plugins.map fun x => entry x (e.get? x.callee)) ++ "  ],\n\x7d;\n" := by
    rw [headline, ← String.append_assoc]
    rfl
  rw [hparts]
  simp only [String.toList_append, List.append_assoc]
  rfl

theorem skip_exported (e : Extracted) (xs : List Plugin) :
    Lexeme.skip (exported e xs) = exported e xs :=
  Lexeme.skip_cons (c := 'm') (by decide) (by decide) _

theorem one_lt_length_exported (e : Extracted) (xs : List Plugin) : 1 < (exported e xs).length := by
  obtain ⟨rest, hrest⟩ : ∃ rest, exported e xs = 'm' :: 'o' :: rest := ⟨_, rfl⟩
  simp [hrest]

/-- No line at the top names an interpreter. -/
theorem head_contents_ne (hc : c.Tidy) (e : Extracted) : (c.contents e).toList.head? ≠ some '#' := by
  intro hhead
  obtain ⟨rest, hrest⟩ := List.head?_eq_some_iff.mp hhead
  have hskip : Lexeme.skip (c.contents e).toList = '#' :: rest := by
    rw [hrest]
    exact Lexeme.skip_cons (by decide) (by decide) rest
  rw [contents_toList] at hskip hrest
  cases hloads : c.imports with
  | nil =>
    rw [hloads] at hskip
    have hvalue : exported e c.plugins = '#' :: rest :=
      (skip_exported e c.plugins).symm.trans ((skip_headline hc _).symm.trans hskip)
    cases hvalue
  | cons m loads => simp [hloads, importLine, String.join_cons] at hrest

/-- A rendered config is a program if its plugins read as instances and its texts are tidy. -/
theorem contents_parses (hmodules : ∀ x ∈ c.plugins, isPlainString x.moduleName.toList = true)
    (hplugins : ∀ x ∈ c.plugins, Instantiable d e x) (hc : c.Tidy) :
    ∃ tree, d.parseChars (c.contents e).toList = .ok tree := by
  have hloads : ∀ m ∈ c.imports, isPlainString m.1.toList = true ∧ m.2 ≠ [] ∧
      ∀ n ∈ m.2, Lexeme.isName n.toList = true := by
    intro m hm
    obtain ⟨⟨x, hx, hmodule⟩, hne, hclasses⟩ := sourced_of_mem_imports hm
    refine ⟨hmodule ▸ hmodules x hx, hne, fun n hn => ?_⟩
    obtain ⟨y, hy, rfl⟩ := hclasses n hn
    exact (hplugins y hy).1
  have hvalue (cs : List Char)
      (hcs : Lexeme.skip cs = Lexeme.skip (c.headline.toList ++ exported e c.plugins)) :
      Repeats ((programs d).accept .statement) cs ['\n'] := by
    have hopens : Lexeme.skip cs = exported e c.plugins :=
      hcs.trans ((skip_headline hc _).trans (skip_exported e _))
    obtain ⟨k, hk⟩ := accept_exports hplugins hopens
    refine .turn hk ?_ (.stop (statement_none_of_end (by decide)))
    exact Nat.lt_of_lt_of_le (one_lt_length_exported e c.plugins) (hopens ▸ Lexeme.length_skip_le cs)
  exact accept_program (head_contents_ne hc e)
    (repeats_imports hloads hvalue (congrArg _ (contents_toList c e))) (by decide)

end PluginConfig

/-! ## Failures of files -/

/-- A failure to read a text as a program. -/
def Failure.IsParse (f : Failure) : Prop :=
  ∃ path line column reason, f = .parse path line column reason

namespace Staging

variable {t u : Staging} {a b : Location} {s : String} {f : Failure}

theorem not_isParse_of_readDisk (h : t.readDisk a = .error f) : ¬f.IsParse := by
  rintro ⟨path, line, column, reason, rfl⟩
  unfold readDisk at h
  split at h
  · cases h
  · split at h
    · split at h
      · cases h
      · cases h
    · cases h

theorem not_isParse_of_remember (h : t.remember a = .error f) : ¬f.IsParse := by
  unfold remember at h
  split at h
  · cases h
  · split at h
    · cases h
    · split at h
      · next g hread =>
        obtain rfl : g = f := Except.error.inj h
        exact not_isParse_of_readDisk hread
      · cases h

theorem not_isParse_of_write (h : t.write a s = .error f) : ¬f.IsParse := by
  unfold write at h
  split at h
  · next g hremember =>
    obtain rfl : g = f := Except.error.inj h
    exact not_isParse_of_remember hremember
  · cases h

theorem not_isParse_of_read (h : t.read a = .error f) : ¬f.IsParse := by
  unfold read at h
  split at h
  · cases h
  · rintro ⟨path, line, column, reason, rfl⟩
    cases h
  · split at h
    · next g hread =>
      obtain rfl : g = f := Except.error.inj h
      exact not_isParse_of_readDisk hread
    · cases h
    · rintro ⟨path, line, column, reason, rfl⟩
      cases h

theorem not_isParse_of_rename (h : (t.rename a b).2 = .error f) : ¬f.IsParse := by
  unfold rename at h
  split at h
  · rintro ⟨path, line, column, reason, rfl⟩
    cases h
  · split at h
    · next g hread =>
      obtain rfl : g = f := Except.error.inj h
      exact not_isParse_of_read hread
    · unfold relink at h
      split at h
      · next g hremember =>
        obtain rfl : g = f := Except.error.inj h
        exact not_isParse_of_remember hremember
      · split at h
        · next g hremember =>
          obtain rfl : g = f := Except.error.inj h
          exact not_isParse_of_remember hremember
        · cases h

end Staging

namespace PluginConfig

open Syntax.Form

variable {c : PluginConfig} {e : Extracted} {d : Dialect} {config : Path} {t : Staging} {f : Failure}
  {cs : List Char}

/-- A config whose text is a program is put in place, or a file is in the way. -/
theorem not_isParse_of_synthesize (hcheck : check (c.contents e) config = .ok ())
    (h : (c.synthesize t config e).2 = .error f) : ¬f.IsParse := by
  unfold synthesize render at h
  simp only [hcheck] at h
  split at h
  · rintro ⟨path, line, column, reason, rfl⟩
    cases h
  · split at h
    · next u g hrename =>
      obtain rfl : g = f := Except.error.inj h
      exact Staging.not_isParse_of_rename (congrArg Prod.snd hrename)
    · next u hrename =>
      split at h
      · next g hwrite =>
        obtain rfl : g = f := Except.error.inj h
        exact Staging.not_isParse_of_write hwrite
      · cases h

/-- A config whose text is no program is not put in place. -/
theorem isParse_of_synthesize (hd : Dialect.ofPath config = .ok d)
    (h : ¬∃ tree, d.parseChars (c.contents e).toList = .ok tree) (t : Staging) :
    ∃ f, (c.synthesize t config e).2 = .error f ∧ f.IsParse := by
  cases hparse : d.parseChars (c.contents e).toList with
  | ok tree => exact absurd ⟨tree, hparse⟩ h
  | error f =>
    have hf : f.IsParse := by
      unfold Dialect.parseChars at hparse
      dsimp only at hparse
      split at hparse
      · cases hparse
      · exact ⟨_, _, _, _, (Except.error.inj hparse).symm⟩
    obtain ⟨path, line, column, reason, rfl⟩ := hf
    refine ⟨.parse config line column reason, ?_, config, line, column, reason, rfl⟩
    simp [synthesize, render, check, hd, Dialect.parse, hparse, Failure.atPath]

/-- The plugins of a valid profile read as instances if the texts of the profile are tidy and every
fragment reads as arguments. -/
theorem instantiable_of_validate {p : Profile} (hvalid : p.validate = .ok ()) (hp : p.config.Tidy)
    (he : ∀ x ∈ p.plugins, ∀ f, e.get? x.callee = some f → Form.IsArguments d f.text.toList) :
    ∀ x ∈ p.plugins, Instantiable d e x := by
  intro x hx
  have hclass := (Profile.named_of_pluginFlaw (Profile.pluginFlaw_of_validate hvalid) hx).1
  refine ⟨Profile.isName_of_isIdentifier hclass, hp.classes x hx, ?_⟩
  cases hf : e.get? x.callee with
  | some f => exact he x hx f hf
  | none =>
    cases hfallback : x.fallback with
    | none => simpa [given, hfallback] using isArguments_nil (d := d)
    | some comment =>
      simp only [given, hfallback]
      exact isArguments_comments (hp.fallbacks x hx comment hfallback)

/-- A profile with a comment for the top of the new config. -/
def commented : Profile :=
  { pairing with
    plugins := [⟨"withA", "A", "m", none⟩, ⟨"withB", "B", "m", none⟩, ⟨"withC", "C", "n", some "c: 1"⟩]
    header := some "Made from w.js\nby hand" }

/-- The fragments of a config that calls two of the functions. -/
def calls : Extracted :=
  ⟨[("withA", some ⟨"withA", "[]", ⟨"w.js"⟩, 6, 8, 1⟩), ("withB", some ⟨"withB", "'b'", ⟨"w.js"⟩, 17, 20, 2⟩),
    ("withC", none)]⟩

theorem isArguments_array : IsArguments d "[]".toList := by
  have hopen (t : List Char) : Lexeme.skip ('[' :: t) = '[' :: t :=
    Lexeme.skip_cons (by decide) (by decide) t
  have hclose (t : List Char) : Lexeme.skip (']' :: t) = ']' :: t :=
    Lexeme.skip_cons (by decide) (by decide) t
  refine isArguments_of_expression (a := '[') (by decide) (fun u => ?_) fun u => ?_
  · simp [Opens, only, hopen]
  · exact accept_array_expression (hopen _)
      (items_of_closer shut_item (hclose _) (by decide) (by decide)) (hclose _) (opens_paren u)
      (.inr (reaches_arrayPattern_nil (hopen _) (hclose _)))

theorem isArguments_quoted {m : List Char} (hm : isPlainString m = true) :
    IsArguments d ('\'' :: (m ++ ['\''])) := by
  have hopen (t : List Char) : Lexeme.skip ('\'' :: t) = '\'' :: t :=
    Lexeme.skip_cons (by decide) (by decide) t
  refine isArguments_of_expression (a := '\'') (by decide) (fun u => ?_) fun u => ?_
  · simp [Opens, only, hopen]
  · refine accept_quoted hm ?_ (opens_paren u)
    simp [hopen]

/-- Profiles that are valid and texts that are programs with the fragments that they hold,
whose new configs are no programs: with an escape in the name of a module, with a word of the
language as a class, with a line separator in the comment, and with a template behind the
function. -/
def broken : List (Profile × String × Extracted) :=
  let profile (x : Plugin) (header : Option String) : Profile :=
    { Profile.ofExecutor "p" "tool:build" with legacyKey := some "config", plugins := [x], header := header }
  let array : Extracted := ⟨[("withA", some ⟨"withA", "[]", ⟨"w.js"⟩, 6, 8, 1⟩)]⟩
  let template : Extracted := ⟨[("withA", some ⟨"withA", "a b", ⟨"w.js"⟩, 6, 9, 1⟩)]⟩
  [(profile ⟨"withA", "A", "m\\", none⟩ none, "withA([]);\n", array),
   (profile ⟨"withA", "class", "m", none⟩ none, "withA([]);\n", array),
   (profile ⟨"withA", "A", "m", none⟩ (some "x\u2028y z"), "withA([]);\n", array),
   (profile ⟨"withA", "A", "m", none⟩ none, "withA\x60a b\x60;\n", template)]

/-- Whether a text is a program. -/
def isProgram (d : Dialect) (cs : List Char) : Bool :=
  ((programs d).accept .program cs).any fun x => Lexeme.skip x.2 = []

theorem isProgram_iff : isProgram d cs = true ↔ ∃ tree, d.parseChars cs = .ok tree := by
  rw [parses_iff, isProgram, Option.any_eq_true]
  simp

/-- A valid profile that finds the given fragments in a source and renders no program. -/
def Rejected (x : Profile × String × Extracted) : Prop :=
  x.1.validate = .ok () ∧
    Extraction.ofText false x.1.callees .typescript ⟨"w.js"⟩ x.2.1 = .ok x.2.2 ∧
    ∀ t, ∃ f, (x.1.config.synthesize t ⟨"w.js"⟩ x.2.2).2 = .error f ∧ f.IsParse

end PluginConfig

end Retarget
