import Mathlib.Data.List.Basic
import Retarget.Proofs.Extraction.Entries
import Retarget.Profile

/-!
# Reading a rendered config again

A rendered config holds every fragment verbatim, as the argument of a constructor.
`contents_eq` says between which texts a fragment stands, so a node over these bytes covers
the text of the fragment.  Extraction takes the first call or constructor expression of a
name; so it gives the fragment of a plugin back if the first one of its class is the one
that was written for the plugin.
-/

namespace Retarget.PluginConfig

open Syntax Extraction
open Place (bytes)

variable {c : PluginConfig} {e : Extracted} {before after : List Plugin} {x : Plugin} {f : Fragment}
  {cs : List Char} {name : String} {n : Node} {start stop : Nat}

/-- The text of a new config before its plugins. -/
def opening (c : PluginConfig) : String :=
  String.join (c.imports.map fun m => importLine m.1 m.2) ++
    (if c.imports.isEmpty then "" else "\n") ++
    (match c.header with
      | some h => commentLines "" h ++ "\n"
      | none => "") ++
    "module.exports = \x7b\n  plugins: [\n"

/-- The text before the fragment of a plugin, given the plugins before it. -/
def leading (c : PluginConfig) (e : Extracted) (before : List Plugin) (x : Plugin) : String :=
  c.opening ++ String.join (before.map fun p => entry p (e.get? p.callee)) ++
    "    new " ++ x.className ++ "("

/-- The text behind the fragment of a plugin, given the plugins behind it. -/
def trailing (e : Extracted) (after : List Plugin) : String :=
  "),\n" ++ String.join (after.map fun p => entry p (e.get? p.callee)) ++ "  ],\n\x7d;\n"

/-- A rendered config holds the fragment of a plugin as it is. -/
theorem contents_eq (hc : c.plugins = before ++ x :: after) (hf : e.get? x.callee = some f)
    (hne : f.text ≠ "") : c.contents e = leading c e before x ++ f.text ++ trailing e after := by
  have hentry : entry x (e.get? x.callee) = "    new " ++ x.className ++ "(" ++ f.text ++ "),\n" := by
    rw [hf, entry]
    exact if_neg (by simpa [Fragment.isEmpty] using hne)
  have hparts : c.contents e = c.opening ++
      String.join (c.plugins.map fun p => entry p (e.get? p.callee)) ++ "  ],\n\x7d;\n" :=
    rfl
  rw [hparts, hc, List.map_append, List.map_cons, String.join_append, String.join_cons, hentry]
  simp only [leading, trailing, String.append_assoc]

/-! ## The calls of a tree -/

/-- A call or constructor expression of a name whose first argument covers given bytes. -/
def Passes (cs : List Char) (n : Node) (name : String) (start stop : Nat) : Prop :=
  ∃ call a, callOf? cs n = some call ∧ call.name = name ∧
    call.arguments.bind firstArgument? = some a ∧ a.start = start ∧ a.stop = stop

/-- Nodes among which there is no call and no constructor expression of a name. -/
def Silent (cs : List Char) (nodes : List Node) (name : String) : Prop :=
  ∀ n ∈ nodes, ∀ call, callOf? cs n = some call → call.name ≠ name

/-- The first call of a name is that of the first node which is one. -/
theorem firstCall?_eq {tree : Node} {seen rest : List Node} {call : Call}
    (htree : tree.preorder = seen ++ n :: rest) (hseen : Silent cs seen name)
    (hn : callOf? cs n = some call) (hname : call.name = name) :
    firstCall? cs tree name = some call := by
  have hnone : (seen.filterMap (callOf? cs)).find? (fun c => c.name = name) = none := by
    rw [List.find?_eq_none]
    intro d hd
    obtain ⟨m, hm, hd⟩ := List.mem_filterMap.mp hd
    simpa using hseen m hm d hd
  rw [firstCall?, calls_eq, htree, List.filterMap_append, List.filterMap_cons, hn, List.find?_append,
    hnone, List.find?_cons]
  simp [hname]

/-- A profile with two plugins. -/
def pairing : Profile :=
  { Profile.ofExecutor "pairing" "tool:build" with
    legacyKey := some "config"
    plugins := [⟨"withA", "A", "m", none⟩, ⟨"withB", "B", "m", none⟩] }

/-- Whether a text reads as a tree whose first call or constructor expression of a name has
a first argument over given bytes. -/
def readsFirst (d : Dialect) (cs : List Char) (name : String) (start stop : Nat) : Bool :=
  match d.parseChars cs with
  | .error _ => false
  | .ok tree =>
    match tree.preorder.find? fun n => (callOf? cs n).any fun call => call.name = name with
    | none => false
    | some n => (callOf? cs n).any fun call =>
      (call.arguments.bind firstArgument?).any fun a => a.start = start && a.stop = stop

theorem exists_of_readsFirst {d : Dialect} (h : readsFirst d cs name start stop = true) :
    ∃ tree seen n rest, d.parseChars cs = .ok tree ∧ tree.preorder = seen ++ n :: rest ∧
      Silent cs seen name ∧ Passes cs n name start stop := by
  unfold readsFirst at h
  split at h
  · cases h
  · next tree htree =>
    split at h
    · cases h
    · next n hfind =>
      obtain ⟨hn, seen, rest, hnodes, hseen⟩ := List.find?_eq_some_iff_append.mp hfind
      obtain ⟨call, hcall, hname⟩ := (Option.any_eq_true _ _).mp hn
      obtain ⟨call', hcall', ha⟩ := (Option.any_eq_true _ _).mp h
      obtain rfl := Option.some.inj (hcall.symm.trans hcall')
      obtain ⟨a, ha, hat⟩ := (Option.any_eq_true _ _).mp ha
      obtain ⟨hstart, hstop⟩ : a.start = start ∧ a.stop = stop := by simpa using hat
      refine ⟨tree, seen, n, rest, htree, hnodes, ?_, call, a, hcall, by simpa using hname, ha,
        hstart, hstop⟩
      intro m hm call hcall hname
      have hsilent := hseen m hm
      rw [hcall] at hsilent
      simp [hname] at hsilent

/-- The fragments of a config that calls both functions. -/
def apart : Extracted :=
  ⟨[("withA", some ⟨"withA", "[1]", ⟨"w.js"⟩, 6, 9, 1⟩),
    ("withB", some ⟨"withB", "\x7b b: 2 \x7d", ⟨"w.js"⟩, 18, 26, 2⟩)]⟩

/-- The fragments of a config whose first call has an instance of the class of the second
plugin as its argument. -/
def nested : Extracted :=
  ⟨[("withA", some ⟨"withA", "new B(1)", ⟨"w.js"⟩, 6, 14, 1⟩),
    ("withB", some ⟨"withB", "\x7b b: 2 \x7d", ⟨"w.js"⟩, 23, 31, 2⟩)]⟩

/-- The fragments of a config that tags a template with one of the functions. -/
def tagged : Extracted :=
  ⟨[("withA", some ⟨"withA", "a, b", ⟨"w.js"⟩, 6, 10, 1⟩),
    ("withB", some ⟨"withB", "\x7b b: 2 \x7d", ⟨"w.js"⟩, 19, 27, 2⟩)]⟩

end Retarget.PluginConfig
