import Retarget.Json.Typed
import Retarget.Profile.Draft

/-!
# Profiles as JSON documents

`Profile.ofJson` reads a profile from a JSON text.  It does not ask whether the
profile is valid.
-/

namespace Retarget.Profile

open Json

/-- How a plugin is read. -/
def pluginShape : RecordShape Plugin PluginDraft Plugin.Field :=
  ⟨"struct PluginSpec", Plugin.Field.all, Plugin.Field.text, .empty, PluginDraft.has,
    PluginDraft.finish⟩

/-- Reads the value of a field of a plugin. -/
def readPluginField (d : PluginDraft) (f : Plugin.Field) (cs : List Char) :
    Except Trouble (PluginDraft × List Char) :=
  match f with
  | .callee => (readText? cs).map fun x => ({ d with callee := some x.1 }, x.2)
  | .className => (readText? cs).map fun x => ({ d with className := some x.1 }, x.2)
  | .moduleName => (readText? cs).map fun x => ({ d with moduleName := some x.1 }, x.2)
  | .fallback => (readOptional readText? cs).map fun x => ({ d with fallback := some x.1 }, x.2)

/-- How a profile is read. -/
def shape : RecordShape Profile Draft Field :=
  ⟨"struct MigrationProfile", Field.all, Field.text, .empty, Draft.has, Draft.finish⟩

/-- Reads the value of a field of a profile. -/
def readField (d : Draft) (f : Field) (cs : List Char) : Except Trouble (Draft × List Char) :=
  match f with
  | .name => (readText? cs).map fun x => ({ d with name := some x.1 }, x.2)
  | .description => (readText? cs).map fun x => ({ d with description := some x.1 }, x.2)
  | .executor => (readText? cs).map fun x => ({ d with executor := some x.1 }, x.2)
  | .legacyKey => (readOptional readText? cs).map fun x => ({ d with legacyKey := some x.1 }, x.2)
  | .implied =>
    (readListOf "a set" readText? cs).map fun x => ({ d with implied := some x.1 }, x.2)
  | .deprecated => (readStringMap cs).map fun x => ({ d with deprecated := some x.1 }, x.2)
  | .pathKeys =>
    (readOptional (readListOf "a sequence" readText?) cs).map fun x =>
      ({ d with pathKeys := some x.1 }, x.2)
  | .plugins =>
    (readListOf "a sequence" (readRecord pluginShape readPluginField) cs).map fun x =>
      ({ d with plugins := some x.1 }, x.2)
  | .header => (readOptional readText? cs).map fun x => ({ d with header := some x.1 }, x.2)
  | .archiveSuffix => (readText? cs).map fun x => ({ d with archiveSuffix := some x.1 }, x.2)

/-- The profile that a JSON text holds. -/
def ofJson (text : String) : Except Failure Profile :=
  match readText (readRecord shape readField) text with
  | .ok p => .ok p
  | .error m => .error (.json m)

end Retarget.Profile
