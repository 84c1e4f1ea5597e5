import Retarget.Profile.JsonDocument
import Retarget.Yaml.Typed

/-!
# Profiles as YAML documents

`Profile.ofYaml` reads a profile from a YAML text.  It does not ask whether the
profile is valid.
-/

namespace Retarget.Profile

open Yaml

/-- Reads a string. -/
def readPlainText : ValueReader String :=
  Yaml.readString "a string"

/-- Reads the value of a field of a plugin. -/
def readPluginValue (x : PluginDraft) (f : Plugin.Field) : ValueReader PluginDraft :=
  fun d p rest =>
    match f with
    | .callee => (readPlainText d p rest).map fun v => ({ x with callee := some v.1 }, v.2)
    | .className => (readPlainText d p rest).map fun v => ({ x with className := some v.1 }, v.2)
    | .moduleName => (readPlainText d p rest).map fun v => ({ x with moduleName := some v.1 }, v.2)
    | .fallback =>
      (Yaml.readOptional readPlainText d p rest).map fun v => ({ x with fallback := some v.1 }, v.2)

/-- Reads the value of a field of a profile. -/
def readValue (x : Draft) (f : Field) : ValueReader Draft := fun d p rest =>
  match f with
  | .name => (readPlainText d p rest).map fun v => ({ x with name := some v.1 }, v.2)
  | .description => (readPlainText d p rest).map fun v => ({ x with description := some v.1 }, v.2)
  | .executor => (readPlainText d p rest).map fun v => ({ x with executor := some v.1 }, v.2)
  | .legacyKey =>
    (Yaml.readOptional readPlainText d p rest).map fun v => ({ x with legacyKey := some v.1 }, v.2)
  | .implied =>
    (Yaml.readListOf "a set" readPlainText d p rest).map fun v =>
      ({ x with implied := some v.1 }, v.2)
  | .deprecated =>
    (Yaml.readStringMap d p rest).map fun v => ({ x with deprecated := some v.1 }, v.2)
  | .pathKeys =>
    (Yaml.readOptional (Yaml.readListOf "a sequence" readPlainText) d p rest).map fun v =>
      ({ x with pathKeys := some v.1 }, v.2)
  | .plugins =>
    (Yaml.readListOf "a sequence" (Yaml.readRecord pluginShape readPluginValue) d p rest).map
      fun v => ({ x with plugins := some v.1 }, v.2)
  | .header =>
    (Yaml.readOptional readPlainText d p rest).map fun v => ({ x with header := some v.1 }, v.2)
  | .archiveSuffix =>
    (readPlainText d p rest).map fun v => ({ x with archiveSuffix := some v.1 }, v.2)

/-- The profile that a YAML text holds. -/
def ofYaml (text : String) : Except Failure Profile :=
  match Yaml.readText (Yaml.readRecord shape readValue) text with
  | .ok p => .ok p
  | .error m => .error (.yaml m)

end Retarget.Profile
