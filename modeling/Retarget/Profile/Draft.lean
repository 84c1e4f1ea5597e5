import Retarget.Profile

/-!
# Profiles being read

A `Draft` is what is known of a profile while its document is read, field by
field, and a `PluginDraft` the same for a plugin.  Some fields may be left out;
`finish` gives the profile, or names the first field that is missing.
-/

namespace Retarget

/-- The fields of a plugin's document. -/
inductive Plugin.Field where
  | callee
  | className
  | moduleName
  | fallback
  deriving DecidableEq, Repr

namespace Plugin.Field

/-- The spelling of a field. -/
def text : Field → String
  | callee => "callee"
  | className => "class_name"
  | moduleName => "module"
  | fallback => "fallback_comment"

/-- All fields in the order of a document. -/
def all : List Field :=
  [callee, className, moduleName, fallback]

end Plugin.Field

namespace Profile

/-- What is known of a plugin. -/
structure PluginDraft where
  callee : Option String
  className : Option String
  moduleName : Option String
  fallback : Option (Option String)

namespace PluginDraft

/-- Nothing is known. -/
def empty : PluginDraft :=
  ⟨none, none, none, none⟩

/-- Whether a field is known. -/
def has (d : PluginDraft) : Plugin.Field → Bool
  | .callee => d.callee.isSome
  | .className => d.className.isSome
  | .moduleName => d.moduleName.isSome
  | .fallback => d.fallback.isSome

/-- The plugin, or the field that is missing. -/
def finish (d : PluginDraft) : Except Plugin.Field Plugin :=
  match d.callee, d.className, d.moduleName with
  | some c, some n, some m => .ok ⟨c, n, m, d.fallback.join⟩
  | none, _, _ => .error .callee
  | some _, none, _ => .error .className
  | some _, some _, none => .error .moduleName

end PluginDraft

/-- What is known of a profile. -/
structure Draft where
  name : Option String
  description : Option String
  executor : Option String
  legacyKey : Option (Option String)
  implied : Option (List String)
  deprecated : Option (OrderedMap String String)
  pathKeys : Option (Option (List String))
  plugins : Option (List Plugin)
  header : Option (Option String)
  archiveSuffix : Option String

namespace Draft

/-- Nothing is known. -/
def empty : Draft :=
  ⟨none, none, none, none, none, none, none, none, none, none⟩

/-- Whether a field is known. -/
def has (d : Draft) : Field → Bool
  | .name => d.name.isSome
  | .description => d.description.isSome
  | .executor => d.executor.isSome
  | .legacyKey => d.legacyKey.isSome
  | .implied => d.implied.isSome
  | .deprecated => d.deprecated.isSome
  | .pathKeys => d.pathKeys.isSome
  | .plugins => d.plugins.isSome
  | .header => d.header.isSome
  | .archiveSuffix => d.archiveSuffix.isSome

/-- The profile, or the field that is missing. -/
def finish (d : Draft) : Except Field Profile :=
  match d.name, d.executor with
  | some n, some e =>
    .ok ⟨n, d.description.getD "", e, d.legacyKey.join, Extraction.distinct (d.implied.getD []),
      d.deprecated.getD [], d.pathKeys.join, d.plugins.getD [], d.header.join,
      d.archiveSuffix.getD "old"⟩
  | none, _ => .error .name
  | some _, none => .error .executor

end Draft

end Profile

end Retarget
