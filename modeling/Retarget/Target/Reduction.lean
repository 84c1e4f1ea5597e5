import Retarget.Json.Writer
import Retarget.Path
import Retarget.Target

/-!
# Reducing a target

What an inferred plugin supplies by itself need not stay in a target.
`Reduction.transform` takes it out of the default options and of every
configuration, drops what is left empty, and tells what has to be done by hand.
`Reduction.stripUnit` and `Reduction.releaseOverride` are its steps, for one
part of a target at a time.
-/

namespace Retarget

/-- What is taken out of a target. -/
structure Reduction where
  /-- the option that names the old config file -/
  legacyKey : Option String
  /-- options that the plugin supplies -/
  implied : List String
  /-- options without a counterpart, each with what to do about it -/
  deprecated : OrderedMap String String
  deriving DecidableEq, Repr

namespace Reduction

/-- Takes out nothing. -/
def none : Reduction :=
  ⟨.none, [], []⟩

/-- The warnings for options without a counterpart. -/
def warningsFor (r : Reduction) (options : Members) : List String :=
  (r.deprecated.filter fun d => options.has d.1).map Prod.snd

/-- Options without those that go. -/
def stripped (r : Reduction) (options : Members) : Members :=
  r.implied.foldl OrderedMap.remove ((r.deprecated.map Prod.fst).foldl OrderedMap.remove options)

/-- Strips options; gives what is left and the warnings. -/
def strip (r : Reduction) (options : Members) : Members × List String :=
  (r.stripped options, r.warningsFor options)

/-- Strips the default options, which also lose the name of the old config. -/
def stripBase (r : Reduction) (t : Target) : Target × List String :=
  match t.options? with
  | .none => (t, [])
  | some options =>
    let (left, warnings) := r.strip options
    let left := match r.legacyKey with
      | some key => left.remove key
      | .none => left
    (if left.isEmpty then t.removeOptions else t.setOptions left, warnings)

/-- Strips a configuration; one that is left empty goes. -/
def stripVariant (r : Reduction) (t : Target) (name : String) : Target × List String :=
  match t.configuration? name with
  | .none => (t, [])
  | some overrides =>
    let (left, warnings) := r.strip overrides
    (if left.isEmpty then t.removeConfiguration name else t.setConfiguration name left, warnings)

/-- Strips one part of a target: the default options, or a configuration. -/
def stripUnit (r : Reduction) (t : Target) : Option String → Target × List String
  | .none => r.stripBase t
  | some name => r.stripVariant t name

/-- Drops the old config from a configuration if it is the file that was
migrated; gives the path of any other file, which stays. -/
def releaseOverride (r : Reduction) (t : Target) (name : String) (migrated : Option Location) :
    Target × Option String :=
  match r.legacyKey, t.configuration? name with
  | some key, some overrides =>
    match overrides.get? key with
    | .none => (t, .none)
    | some v =>
      let same : Bool := match v, migrated with
        | .string p, some m => (Path.mk p).location = m
        | _, _ => false
      if same then (t.setConfiguration name (overrides.remove key), .none)
      else (t, some (match v with
        | .string p => p
        | v => v.compact))
  | _, _ => (t, .none)

/-- What to tell about a configuration whose old config was not migrated. -/
def unmergedOverride (name path : String) : String :=
  "Configuration '" ++ name ++ "' still uses " ++ path ++
    ", which was not migrated; merge it into the plugin config by hand."

/-- Drops empty options. -/
def tidyOptions (t : Target) : Target :=
  match t.options? with
  | some [] => t.removeOptions
  | _ => t

/-- Drops a configuration if it is empty. -/
def dropEmpty (t : Target) (name : String) : Target :=
  match t.configuration? name with
  | some [] => t.removeConfiguration name
  | _ => t

/-- Drops empty configurations, and the field of them if none is left. -/
def tidyConfigurations (t : Target) : Target :=
  if t.hasConfigurations then
    let u := t.configurationNames.foldl dropEmpty t
    if u.configurationNames.isEmpty then u.removeConfigurations.removeDefaultConfiguration else u
  else t

/-- Drops the name of a default configuration that is not there. -/
def tidyDefault (t : Target) : Target :=
  match t.defaultConfiguration? with
  | .none => t
  | some name => if (t.configuration? name).isNone then t.removeDefaultConfiguration else t

/-- Drops what stripping has left empty. -/
def tidy (t : Target) : Target :=
  tidyDefault (tidyConfigurations (tidyOptions t))

/-- The old config file that the default options name. -/
def legacyConfig? (r : Reduction) (t : Target) : Option String :=
  r.legacyKey.bind t.optionString?

/-- Reduces one configuration after the default options were. -/
def reduceVariant (r : Reduction) (migrated : Option Location) (state : Target × List String)
    (name : String) : Target × List String :=
  let (t, kept) := r.releaseOverride state.1 name migrated
  let (u, warnings) := r.stripVariant t name
  (u, state.2 ++ (kept.map (unmergedOverride name)).toList ++ warnings)

/-- Reduces a whole target: default options, every configuration, then what is
left empty. -/
def transform (r : Reduction) (t : Target) : Target × List String :=
  let migrated := (r.legacyConfig? t).map fun p => (Path.mk p).location
  let base := r.stripBase t
  let (u, warnings) := base.1.configurationNames.foldl (r.reduceVariant migrated) base
  (tidy u, warnings)

end Reduction

end Retarget
