import Retarget.Proofs.Plugin.Rendering

/-!
# What a rendered config binds

At its head a rendered config takes classes from modules, each module once.  `loads` reads these
statements off the text, and `Binds` relates them to the plugins: a class is taken from the module
of every plugin that names it, so it is bound twice just if two plugins take it from different
modules (`rendered_config_binds`).  Validation compares callees and lets such plugins pass
(`class_bound_twice`).  Behind the statements stands one instance for each plugin.
-/

namespace Retarget

open Syntax

namespace Profile

variable {xs : List Plugin} {x : Plugin} {seen : List String} {s : String}

/-- Without a flaw, plugins are fed by functions of different names, which are identifiers. -/
theorem fed_of_pluginFlaw (h : pluginFlaw seen xs = none) :
    (xs.map Plugin.callee).Nodup ∧
      ∀ x ∈ xs, isIdentifier x.callee = true ∧ x.callee ∉ seen := by
  induction xs generalizing seen with
  | nil => exact ⟨List.nodup_nil, by simp⟩
  | cons y ys ih =>
    simp only [pluginFlaw] at h
    split_ifs at h with hcallee _ _ hfresh
    obtain ⟨hnodup, hothers⟩ := ih h
    constructor
    · rw [List.map_cons, List.nodup_cons]
      refine ⟨?_, hnodup⟩
      intro hmem
      obtain ⟨x, hx, hsame⟩ := List.mem_map.mp hmem
      exact (hothers x hx).2 (hsame ▸ List.mem_cons_self)
    · intro x hx
      rcases List.mem_cons.mp hx with rfl | hx
      · exact ⟨by simpa using hcallee, by simpa using hfresh⟩
      · obtain ⟨hname, hnew⟩ := hothers x hx
        exact ⟨hname, fun hmem => hnew (List.mem_cons_of_mem _ hmem)⟩

theorem all_isWordChar_of_isIdentifier (h : isIdentifier s = true) :
    s.toList.all Lexeme.isWordChar = true := by
  have hname := isName_of_isIdentifier h
  cases hs : s.toList with
  | nil => rfl
  | cons c rest =>
    rw [hs] at hname
    obtain ⟨hstart, hrest⟩ := Bool.and_eq_true_iff.mp hname
    rw [List.all_cons, hrest, Bool.and_true]
    exact (Bool.and_eq_true_iff.mp hstart).1

end Profile

namespace PluginConfig

open Form Rule

variable {c : PluginConfig} {e : Extracted} {d : Dialect} {x : Plugin} {xs : List Plugin}
  {cs t : List Char}

/-! ## Reading the head of a text -/

/-- Reads up to a mark that begins with a given character: what stands before that character, and
what follows the mark. -/
def readTo (a : Char) (mark cs : List Char) : Option (List Char × List Char) :=
  ((cs.dropWhile (· ≠ a)).dropPrefix? (a :: mark)).map fun rest => (cs.takeWhile (· ≠ a), rest)

/-- Reads a statement that takes classes from a module: the module and the classes, and what
follows. -/
def load? (cs : List Char) : Option ((String × List String) × List Char) := do
  let rest ← cs.dropPrefix? "const \x7b ".toList
  let (classes, rest) ← readTo '\x7d' " = require('".toList rest
  let (quoted, rest) ← readTo '\'' ");\n".toList rest
  let names := (classes.filter (· ≠ ' ')).splitOn ','
  return ((String.ofList quoted, names.map String.ofList), rest)

/-- The first few statements that take classes from modules. -/
def loadsWithin : Nat → List Char → List (String × List String)
  | 0, _ => []
  | k + 1, cs =>
    match load? cs with
    | none => []
    | some (m, rest) => m :: loadsWithin k rest

/-- The statements at the head of a text that take classes from modules. -/
def loads (text : String) : List (String × List String) :=
  loadsWithin text.toList.length text.toList

/-- The names that these statements bind. -/
def bound (text : String) : List String :=
  (loads text).flatMap Prod.snd

variable {m : String × List String} {ms : List (String × List String)} {ws : List (List Char)}

theorem not_mem_of_words {w : List Char} (hw : w.all Lexeme.isWordChar = true) {a : Char}
    (ha : Lexeme.isWordChar a = false) : a ∉ w := by
  intro hmem
  rw [List.all_eq_true.mp hw a hmem] at ha
  cases ha

/-- Words between commas are found again. -/
theorem words_between_commas (hws : ∀ w ∈ ws, w.all Lexeme.isWordChar = true) :
    '\x7d' ∉ [',', ' '].intercalate ws ∧
      ([',', ' '].intercalate ws).filter (· ≠ ' ') = [','].intercalate ws := by
  induction ws with
  | nil => exact ⟨List.not_mem_nil, rfl⟩
  | cons w ws ih =>
    have hw := hws w List.mem_cons_self
    have hbrace : '\x7d' ∉ w := not_mem_of_words hw (by decide)
    have hblanks : w.filter (· ≠ ' ') = w := by
      rw [List.filter_eq_self]
      intro a ha
      apply decide_eq_true
      rintro rfl
      exact not_mem_of_words hw (by decide) ha
    obtain ⟨hbraces, hrest⟩ := ih fun v hv => hws v (List.mem_cons_of_mem _ hv)
    cases ws with
    | nil =>
      rw [List.intercalate_singleton, List.intercalate_singleton]
      exact ⟨hbrace, hblanks⟩
    | cons v ws =>
      rw [List.intercalate_cons_cons, List.intercalate_cons_cons]
      refine ⟨?_, ?_⟩
      · simp [hbrace, hbraces]
      · rw [List.filter_append, List.filter_append, hblanks, hrest]
        rfl

/-- A statement that can be read again: words of a module whose name has no quote. -/
def Legible (m : String × List String) : Prop :=
  '\'' ∉ m.1.toList ∧ m.2 ≠ [] ∧ ∀ n ∈ m.2, n.toList.all Lexeme.isWordChar = true

theorem readTo_append {a : Char} {w : List Char} (ha : a ∉ w) (mark t : List Char) :
    readTo a mark (w ++ (a :: mark ++ t)) = some (w, t) := by
  have hw : ∀ b ∈ w, decide (b ≠ a) = true := by
    intro b hb
    apply decide_eq_true
    rintro rfl
    exact ha hb
  rw [readTo, List.dropWhile_append_of_pos hw, List.takeWhile_append_of_pos hw, List.cons_append,
    List.dropWhile_cons_of_neg (by simp), List.takeWhile_cons_of_neg (by simp), List.append_nil,
    ← List.cons_append, List.dropPrefix?_append_of_beq _ (beq_self_eq_true _)]
  rfl

theorem load?_importLine (hm : Legible m) (t : List Char) :
    load? ((importLine m.1 m.2).toList ++ t) = some (m, t) := by
  obtain ⟨hmodule, hne, hclasses⟩ := hm
  obtain ⟨hbraces, hfilter⟩ := words_between_commas (List.forall_mem_map.mpr hclasses)
  have htext : (importLine m.1 m.2).toList ++ t = "const \x7b ".toList ++
      (([',', ' '].intercalate (m.2.map String.toList) ++ [' ']) ++
        ('\x7d' :: " = require('".toList ++ (m.1.toList ++ ('\'' :: ");\n".toList ++ t)))) := by
    simp [importLine, String.toList_intercalate]
  have hinside : '\x7d' ∉ [',', ' '].intercalate (m.2.map String.toList) ++ [' '] := by
    simp [hbraces]
  have hsplit : ([','].intercalate (m.2.map String.toList)).splitOn ',' =
      m.2.map String.toList := by
    refine List.splitOn_intercalate ',' ?_ (by simpa using hne)
    intro w hw
    obtain ⟨n, hn, rfl⟩ := List.mem_map.mp hw
    exact not_mem_of_words (hclasses n hn) (by decide)
  have hlist : ((([',', ' '].intercalate (m.2.map String.toList) ++ [' ']).filter
      (· ≠ ' ')).splitOn ',').map String.ofList = m.2 := by
    rw [List.filter_append, hfilter, show [' '].filter (· ≠ ' ') = [] from rfl, List.append_nil,
      hsplit]
    simp [Function.comp_def]
  unfold load?
  rw [htext, List.dropPrefix?_append_of_beq _ (beq_self_eq_true _), Option.bind_eq_bind,
    Option.bind_some, readTo_append hinside, Option.bind_eq_bind, Option.bind_some]
  dsimp only
  rw [readTo_append hmodule, Option.bind_some]
  dsimp only
  rw [hlist, String.ofList_toList]
  rfl

/-- The statements at the head of a text are found again, if nothing like them follows. -/
theorem loads_of_importLines {text : String} (hms : ∀ m ∈ ms, Legible m) (ht : load? t = none)
    (htext : text.toList = (String.join (ms.map fun m => importLine m.1 m.2)).toList ++ t) :
    loads text = ms := by
  have hwithin (ms : List (String × List String)) (hms : ∀ m ∈ ms, Legible m) (k : Nat)
      (hk : ms.length ≤ k) :
      loadsWithin k ((String.join (ms.map fun m => importLine m.1 m.2)).toList ++ t) = ms := by
    induction ms generalizing k with
    | nil =>
      cases k with
      | zero => rfl
      | succ k =>
        rw [loadsWithin, show (String.join ([].map _)).toList ++ t = t from rfl, ht]
    | cons m ms ih =>
      obtain ⟨k, rfl⟩ := Nat.exists_eq_add_one_of_ne_zero (Nat.ne_zero_of_lt hk)
      rw [List.map_cons, String.join_cons, String.toList_append, List.append_assoc, loadsWithin,
        load?_importLine (hms m List.mem_cons_self)]
      dsimp only
      rw [ih (fun n hn => hms n (List.mem_cons_of_mem _ hn)) k (Nat.le_of_succ_le_succ hk)]
  have hlength (ms : List (String × List String)) :
      ms.length ≤ (String.join (ms.map fun m => importLine m.1 m.2)).toList.length := by
    induction ms with
    | nil => exact Nat.zero_le _
    | cons m ms ih =>
      rw [List.map_cons, String.join_cons, String.toList_append, List.length_append,
        List.length_cons]
      have hline : 0 < (importLine m.1 m.2).toList.length := by
        simp [importLine]
      omega
  rw [loads, htext]
  refine hwithin ms hms _ ?_
  rw [List.length_append]
  exact Nat.le_trans (hlength ms) (Nat.le_add_right _ _)

theorem legible_of_mem_imports (hxs : ∀ x ∈ c.plugins, Profile.isIdentifier x.className = true ∧
    Profile.isModuleName x.moduleName = true) (hm : m ∈ c.imports) : Legible m := by
  obtain ⟨⟨x, hx, hmodule⟩, hne, hclasses⟩ := sourced_of_mem_imports hm
  refine ⟨?_, hne, ?_⟩
  · rw [← hmodule]
    intro hmem
    have hquotes := (Bool.and_eq_true_iff.mp (hxs x hx).2).2
    simpa using List.all_eq_true.mp hquotes _ hmem
  · intro n hn
    obtain ⟨y, hy, rfl⟩ := hclasses n hn
    exact Profile.all_isWordChar_of_isIdentifier (hxs y hy).1

/-- Nothing like a statement that takes classes stands behind those statements. -/
theorem load?_headline (c : PluginConfig) (e : Extracted) (xs : List Plugin) :
    load? (c.headline.toList ++ exported e xs) = none := by
  have hother {a : Char} (ha : a ≠ 'c') (r : List Char) : load? (a :: r) = none := by
    have hprefix : (a :: r).dropPrefix? "const \x7b ".toList = none := by
      simp [List.dropPrefix?, ha]
    rw [load?, hprefix]
    rfl
  rw [headline, String.toList_append]
  split
  · rw [String.toList_empty, List.nil_append]
    cases hheader : c.header with
    | none => exact hother (a := 'm') (by decide) _
    | some h =>
      dsimp only
      rw [commentLines]
      cases Text.lines h with
      | nil => exact hother (a := '\n') (by decide) _
      | cons l ls =>
        rw [List.map_cons, String.join_cons]
        simp only [String.toList_append, List.append_assoc]
        exact hother (a := '/') (by decide) _
  · exact hother (a := '\n') (by decide) _

/-- The statements at the head of a rendered config load its modules. -/
theorem loads_contents (hxs : ∀ x ∈ c.plugins, Profile.isIdentifier x.className = true ∧
    Profile.isModuleName x.moduleName = true) (e : Extracted) :
    loads (c.contents e) = c.imports :=
  loads_of_importLines (fun _ hm => legible_of_mem_imports hxs hm) (load?_headline c e c.plugins)
    (contents_toList c e)

/-! ## Instances -/

/-- The grammar reads a list whose elements are instances, one for each of some plugins in their
order: the class of the plugin and what is given to it. -/
inductive Instances (d : Dialect) (e : Extracted) : List Plugin → List Char → Prop
  | done {cs u : List Char} (hend : Lexeme.skip cs = ']' :: u) : Instances d e [] cs
  | more {x : Plugin} {xs : List Plugin} {cs rest u : List Char} {k}
      (hopen : Lexeme.skip cs = "new".toList ++ ' ' :: (x.className.toList ++
        '(' :: ((given x (e.get? x.callee)).toList ++ ')' :: rest)))
      (hread : (programs d).accept (.expression .closed) cs = some (k, rest))
      (hcomma : Lexeme.skip rest = ',' :: u) (hmore : Instances d e xs u) :
      Instances d e (x :: xs) cs

theorem instances_of_entries {r u : List Char} (hxs : ∀ x ∈ xs, Instantiable d e x)
    (hr : Lexeme.skip r = ']' :: u) (hcs : Lexeme.skip cs = Lexeme.skip (entries e xs ++ r)) :
    Instances d e xs cs := by
  have hbreak (t : List Char) : Lexeme.skip ('\n' :: t) = Lexeme.skip t :=
    Lexeme.skip_gap (by decide) t
  induction xs generalizing cs with
  | nil => exact .done (hcs.trans hr)
  | cons x xs ih =>
    have hopen := hcs.trans ((hbreak _).symm.trans (skip_entries_cons e x xs r))
    obtain ⟨k, hread⟩ := accept_entry (hxs x List.mem_cons_self) hopen
    refine .more hopen hread (Lexeme.skip_cons (by decide) (by decide) _) ?_
    exact ih (fun y hy => hxs y (List.mem_cons_of_mem _ hy)) (hbreak _)

/-! ## Notes -/

/-- Plugins that are fed by different functions are reported in different words. -/
theorem callee_eq_of_missingCall {y : Plugin} (hx : Profile.isIdentifier x.callee = true)
    (hy : Profile.isIdentifier y.callee = true) (h : missingCall x = missingCall y) :
    x.callee = y.callee := by
  have hparen {z : Plugin} (hz : Profile.isIdentifier z.callee = true) : '(' ∉ z.callee.toList :=
    not_mem_of_words (Profile.all_isWordChar_of_isIdentifier hz) (by decide)
  have htext (z : Plugin) : (missingCall z).toList = "No ".toList ++ (z.callee.toList ++
      ('(' :: [] ++ ("...) call found; " ++ z.className ++
        " is created with default options.").toList)) := by
    simp [missingCall]
  have hchars := congrArg String.toList h
  rw [htext, htext] at hchars
  have hread := congrArg (readTo '(' []) (List.append_cancel_left hchars)
  rw [readTo_append (hparen hx), readTo_append (hparen hy)] at hread
  exact String.toList_injective (Prod.mk.inj (Option.some.inj hread)).1

/-- Different plugins of a valid profile have different notes. -/
theorem nodup_notes {p : Profile} (hvalid : p.validate = .ok ()) (e : Extracted) :
    (p.config.notes e).Nodup := by
  obtain ⟨hnodup, hfed⟩ := Profile.fed_of_pluginFlaw (Profile.pluginFlaw_of_validate hvalid)
  refine List.Nodup.map_on ?_ (hnodup.of_map.filter _)
  intro x hx y hy hsame
  have hx := (List.mem_filter.mp hx).1
  have hy := (List.mem_filter.mp hy).1
  have hcallee := callee_eq_of_missingCall (hfed x hx).1 (hfed y hy).1 hsame
  exact List.inj_on_of_nodup_map hnodup hx hy hcallee

theorem length_notes (c : PluginConfig) (e : Extracted) :
    (c.notes e).length = c.plugins.countP fun x => (e.get? x.callee).isNone := by
  rw [notes, List.length_map, List.countP_eq_length_filter]

theorem mem_notes {w : String} :
    w ∈ c.notes e ↔ ∃ x ∈ c.plugins, e.get? x.callee = none ∧ w = missingCall x := by
  simp only [notes, List.mem_map, List.mem_filter, Option.isNone_iff_eq_none, and_assoc,
    @eq_comm _ w]

/-! ## The whole config -/

/-- What the config of a valid profile binds and instantiates.  The statements at its head take
every class from the modules of the plugins that name it.  So if no two plugins take one class
from different modules, and only then, no class is bound twice, and each is bound by one
statement.  The list holds one entry for each plugin in their order, and if the texts are tidy and
fragments read as arguments, each of them reads as one instance.  There is one note for each
plugin without a fragment. -/
theorem rendered_config_binds (p : Profile) (hvalid : p.validate = .ok ()) (e : Extracted)
    {text : String} {warnings : List String} (h : p.config.render e = (text, warnings)) :
    Binds p.plugins (loads text) ∧
      ((bound text).Nodup ↔ OneSource p.plugins) ∧
      (OneSource p.plugins → ∀ x ∈ p.plugins, ∃! m, m ∈ loads text ∧ x.className ∈ m.2) ∧
      (∃ before list, text.toList = before ++ ("module.exports = \x7b\n  plugins: [\n".toList ++
          (list ++ "  ],\n\x7d;\n".toList)) ∧
        list = (p.plugins.flatMap fun x =>
          ("    new " ++ x.className ++ "(" ++ given x (e.get? x.callee) ++ "),\n").toList) ∧
        ∀ d, p.config.Tidy →
          (∀ x ∈ p.plugins, ∀ f, e.get? x.callee = some f → IsArguments d f.text.toList) →
          Instances d e p.plugins (list ++ "  ],\n\x7d;\n".toList)) ∧
      warnings.Nodup ∧ warnings.length = (p.plugins.countP fun x => (e.get? x.callee).isNone) ∧
      ∀ w, w ∈ warnings ↔ ∃ x ∈ p.plugins, e.get? x.callee = none ∧ w = missingCall x := by
  obtain ⟨rfl, rfl⟩ := Prod.mk.inj h
  have hnamed : ∀ x ∈ p.config.plugins, Profile.isIdentifier x.className = true ∧
      Profile.isModuleName x.moduleName = true :=
    fun x hx => Profile.named_of_pluginFlaw (Profile.pluginFlaw_of_validate hvalid) hx
  have hbinds : Binds p.plugins (loads (p.config.contents e)) := by
    rw [loads_contents hnamed]
    exact binds_imports p.config
  refine ⟨hbinds, hbinds.nodup_iff, fun hsource x hx => hbinds.existsUnique hsource hx, ?_,
    nodup_notes hvalid e, length_notes p.config e, fun w => mem_notes⟩
  have hentries (xs : List Plugin) : entries e xs = xs.flatMap fun x =>
      ("    new " ++ x.className ++ "(" ++ given x (e.get? x.callee) ++ "),\n").toList := by
    induction xs with
    | nil => rfl
    | cons x xs ih =>
      rw [List.flatMap_cons, ← ih, ← entry_eq, entries, List.map_cons, String.join_cons,
        String.toList_append]
      rfl
  have htext := contents_toList p.config e
  rw [← List.append_assoc] at htext
  refine ⟨_, entries e p.plugins, htext, hentries p.plugins, ?_⟩
  intro d htidy harguments
  exact instances_of_entries (u := ",\n\x7d;\n".toList)
    (instantiable_of_validate hvalid htidy harguments) (by decide) rfl

theorem rendered_config_binds_commented :
    commented.validate = .ok () ∧ OneSource commented.plugins ∧
      loads (commented.config.render calls).1 = [("m", ["A", "B"]), ("n", ["C"])] ∧
      (bound (commented.config.render calls).1).Nodup ∧
      (commented.config.render calls).2 =
        ["No withC(...) call found; C is created with default options."] := by
  obtain ⟨-, hnodup, -⟩ := rendered_config_binds commented (by decide) calls rfl
  have hsource : OneSource commented.plugins := by
    unfold OneSource
    decide
  have hloads : loads (commented.config.render calls).1 = commented.config.imports :=
    loads_contents (by decide) calls
  exact ⟨by decide, hsource, hloads.trans (by decide), hnodup.mpr hsource, by decide⟩

/-- A profile with two plugins that take classes of one name from different modules. -/
def namesakes : Profile :=
  { pairing with plugins := [⟨"withA", "A", "m", none⟩, ⟨"withB", "A", "n", none⟩] }

/-- What is extracted from a config that calls neither function. -/
def uncalled : Extracted :=
  ⟨[("withA", none), ("withB", none)]⟩

/-- A profile with one plugin. -/
def single : Profile :=
  { pairing with plugins := [⟨"withA", "A", "m", none⟩] }

/-- The fragments of a config that tags a template with a function. -/
def template : Extracted :=
  ⟨[("withA", some ⟨"withA", "1), new B(2", ⟨"w.js"⟩, 6, 17, 1⟩)]⟩

/-- The number of instances in each list of a tree. -/
def instanceCounts (tree : Node) : List Nat :=
  (tree.preorder.filter fun n => n.is .array).map fun n =>
    n.namedChildren.countP fun m => m.is .newExpression

/-- A valid profile whose config binds a class twice and still is a program, and one whose config
holds two instances for one plugin. -/
theorem class_bound_twice :
    (namesakes.validate = .ok () ∧
      Extraction.ofText false namesakes.callees .typescript ⟨"w.js"⟩ "" = .ok uncalled ∧
      bound (namesakes.config.render uncalled).1 = ["A", "A"] ∧
      check (namesakes.config.render uncalled).1 ⟨"w.js"⟩ = .ok ()) ∧
      single.validate = .ok () ∧
      Extraction.ofText false single.callees .typescript ⟨"w.js"⟩ "withA`1), new B(2`;\n" =
        .ok template ∧
      (Dialect.typescript.parse (single.config.render template).1).map instanceCounts =
        .ok [2] := by
  decide +kernel

end PluginConfig

end Retarget
