import Retarget.Extraction
import Retarget.OrderedMap
import Retarget.Staging

/-!
# Plugin configs

A `Plugin` says which call of the old config feeds which class of the new one.
`PluginConfig.render` writes a config that instantiates all plugins in order,
each with the argument of its call, and `PluginConfig.synthesize` stages it in
place of the old file, which moves to its archive path first.
-/

namespace Retarget

open Syntax

/-- One plugin of the new config, fed by one call of the old one. -/
structure Plugin where
  /-- the function whose argument becomes the options -/
  callee : String
  /-- the class to instantiate -/
  className : String
  /-- the module that provides the class -/
  moduleName : String
  /-- a comment to leave inside the constructor call if there is no call to
  take options from -/
  fallback : Option String
  deriving DecidableEq, Repr

/-- How a config is rendered and where the old one goes. -/
structure PluginConfig where
  plugins : List Plugin
  header : Option String
  archiveSuffix : String
  deriving DecidableEq, Repr

/-- A config that was put in place of another one. -/
structure Synthesized where
  path : Path
  archived : Path
  contents : String
  warnings : List String
  deriving DecidableEq, Repr

namespace PluginConfig

/-- Nothing to instantiate, and the usual archive suffix. -/
def empty : PluginConfig :=
  ⟨[], none, "old"⟩

/-- The callees that feed plugins, in order. -/
def callees (c : PluginConfig) : List String :=
  c.plugins.map Plugin.callee

/-- The path that a file is archived to: the suffix goes before the
extension. -/
def archivePath (c : PluginConfig) (p : Path) : Path :=
  let stem := p.fileStem?.getD ""
  p.withFileName (match p.extension? with
    | some e => stem ++ "." ++ c.archiveSuffix ++ "." ++ e
    | none => stem ++ "." ++ c.archiveSuffix)

/-- Adds the class of a plugin to its module. -/
def addImport (m : OrderedMap String (List String)) (p : Plugin) :
    OrderedMap String (List String) :=
  let names := (m.get? p.moduleName).getD []
  m.insert p.moduleName (if names.contains p.className then names else names ++ [p.className])

/-- The modules to load with the classes taken from each, in the order in which
plugins name them. -/
def imports (c : PluginConfig) : OrderedMap String (List String) :=
  c.plugins.foldl addImport []

/-- The statement that loads a module. -/
def importLine (moduleName : String) (names : List String) : String :=
  "const \x7b " ++ ", ".intercalate names ++ " \x7d = require('" ++ moduleName ++ "');\n"

/-- A comment, line by line, each after an indent. -/
def commentLines (indent text : String) : String :=
  String.join ((Text.lines text).map fun l => indent ++ "// " ++ l ++ "\n")

/-- The entry of a plugin in the list, given the fragment of its call. -/
def entry (p : Plugin) (f : Option Fragment) : String :=
  let bare := "    new " ++ p.className ++ "(),\n"
  match f with
  | some f =>
    if f.isEmpty then bare else "    new " ++ p.className ++ "(" ++ f.text ++ "),\n"
  | none =>
    match p.fallback with
    | none => bare
    | some comment =>
      "    new " ++ p.className ++ "(\x7b\n" ++ commentLines "      " comment ++ "    \x7d),\n"

/-- What to tell about a plugin whose call is missing. -/
def missingCall (p : Plugin) : String :=
  "No " ++ p.callee ++ "(...) call found; " ++ p.className ++
    " is created with default options."

/-- The text of the new config. -/
def contents (c : PluginConfig) (e : Extracted) : String :=
  let loads := c.imports
  String.join (loads.map fun m => importLine m.1 m.2) ++
    (if loads.isEmpty then "" else "\n") ++
    (match c.header with
      | some h => commentLines "" h ++ "\n"
      | none => "") ++
    "module.exports = \x7b\n  plugins: [\n" ++
    String.join (c.plugins.map fun p => entry p (e.get? p.callee)) ++
    "  ],\n\x7d;\n"

/-- A note for each plugin whose call is missing. -/
def notes (c : PluginConfig) (e : Extracted) : List String :=
  (c.plugins.filter fun p => (e.get? p.callee).isNone).map missingCall

/-- The text of the new config and a note for each plugin whose call is
missing. -/
def render (c : PluginConfig) (e : Extracted) : String × List String :=
  (c.contents e, c.notes e)

/-- Whether the new text is a program in the language of its file. -/
def check (contents : String) (config : Path) : Except Failure Unit :=
  match Dialect.ofPath config with
  | .error f => .error f
  | .ok d =>
    match d.parse contents with
    | .error f => .error (f.atPath config)
    | .ok _ => .ok ()

/-- Archives a config and stages the new one in its place.  The new text is
checked before anything is staged, and a taken archive path stops it. -/
def synthesize (c : PluginConfig) (t : Staging) (config : Path) (e : Extracted) :
    Staging × Except Failure Synthesized :=
  let (text, warnings) := c.render e
  let archived := c.archivePath config
  match check text config with
  | .error f => (t, .error f)
  | .ok () =>
    if t.exists_ archived.location then (t, .error (.archiveExists archived))
    else
      match t.rename config.location archived.location with
      | (u, .error f) => (u, .error f)
      | (u, .ok ()) =>
        match u.write config.location text with
        | .error f => (u, .error f)
        | .ok v => (v, .ok ⟨config, archived, text, warnings⟩)

end PluginConfig

end Retarget
