import Retarget.Json

/-!
# Targets

A `Target` is a unit of work of a project as its document describes it: an
object with an executor, default options, and configurations that override
them.  Fields that nothing here knows stay as they are, and so does the order
of all fields.
-/

namespace Retarget

/-- A target: the fields of its object. -/
structure Target where
  fields : Members
  deriving Repr

namespace Target

/-- A target without fields. -/
def empty : Target :=
  ⟨[]⟩

/-- A target bound to an executor. -/
def ofExecutor (executor : String) : Target :=
  ⟨[("executor", .string executor)]⟩

/-- Whether a target has no fields. -/
def isEmpty (t : Target) : Bool :=
  t.fields.isEmpty

/-- A field that holds a string. -/
def stringField? (t : Target) (key : String) : Option String :=
  (t.fields.get? key).bind Json.string?

/-- A field that holds an object. -/
def membersField? (t : Target) (key : String) : Option Members :=
  (t.fields.get? key).bind Json.members?

/-- Gives a field a value. -/
def setField (t : Target) (key : String) (v : Json) : Target :=
  ⟨t.fields.insert key v⟩

/-- Removes a field. -/
def removeField (t : Target) (key : String) : Target :=
  ⟨t.fields.remove key⟩

/-- The executor. -/
def executor? (t : Target) : Option String :=
  t.stringField? "executor"

/-- Removes the executor. -/
def removeExecutor (t : Target) : Target :=
  t.removeField "executor"

/-- The default options. -/
def options? (t : Target) : Option Members :=
  t.membersField? "options"

/-- Replaces the default options. -/
def setOptions (t : Target) (m : Members) : Target :=
  t.setField "options" (.object m)

/-- Removes the default options. -/
def removeOptions (t : Target) : Target :=
  t.removeField "options"

/-- A default option that is a string. -/
def optionString? (t : Target) (key : String) : Option String :=
  (t.options?.bind fun m => m.get? key).bind Json.string?

/-- Sets a default option; options that are no object make way. -/
def withOption (t : Target) (key : String) (v : Json) : Target :=
  t.setOptions (OrderedMap.insert (t.options?.getD []) key v)

/-- Whether there is a field of configurations. -/
def hasConfigurations (t : Target) : Bool :=
  t.fields.has "configurations"

/-- The configurations. -/
def configurations? (t : Target) : Option Members :=
  t.membersField? "configurations"

/-- The names of the configurations. -/
def configurationNames (t : Target) : List String :=
  (t.configurations?.getD []).map Prod.fst

/-- The overrides of a configuration. -/
def configuration? (t : Target) (name : String) : Option Members :=
  (t.configurations?.bind fun m => m.get? name).bind Json.members?

/-- Replaces the overrides of a configuration; a field of configurations that is
no object is left alone. -/
def setConfiguration (t : Target) (name : String) (overrides : Members) : Target :=
  match t.fields.get? "configurations" with
  | none => t.setField "configurations" (.object [(name, .object overrides)])
  | some (.object m) => t.setField "configurations" (.object (OrderedMap.insert m name (.object overrides)))
  | some _ => t

/-- Removes a configuration. -/
def removeConfiguration (t : Target) (name : String) : Target :=
  match t.configurations? with
  | some m => t.setField "configurations" (.object (m.remove name))
  | none => t

/-- Removes the field of configurations. -/
def removeConfigurations (t : Target) : Target :=
  t.removeField "configurations"

/-- The name of the default configuration. -/
def defaultConfiguration? (t : Target) : Option String :=
  t.stringField? "defaultConfiguration"

/-- Names the default configuration. -/
def setDefaultConfiguration (t : Target) (name : String) : Target :=
  t.setField "defaultConfiguration" (.string name)

/-- Removes the name of the default configuration. -/
def removeDefaultConfiguration (t : Target) : Target :=
  t.removeField "defaultConfiguration"

/-- The value of a target's document. -/
def toJson (t : Target) : Json :=
  .object t.fields

end Target

end Retarget
