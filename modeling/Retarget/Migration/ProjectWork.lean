import Retarget.Migration.Basic

/-!
# Migrating one project

`Migration.migrateProject` goes through the units of a project.  A base unit
with an old config has its fragments extracted and relocated and the new config
staged, once per config file; then the unit is stripped.  At the end the targets
are tidied, the document of the project is staged, and unless it is a dry run
everything is flushed.

The first failure ends the work; what was staged up to then is left to the
caller.
-/

namespace Retarget.Migration

/-- What has been done for a project. -/
structure Work where
  /-- the project as it is now -/
  project : Project
  warnings : List Warning
  migrated : Nat
  skipped : Nat
  /-- the new config written last -/
  config : Option Path
  /-- why units were skipped -/
  reasons : List String
  /-- the fragments of each old config -/
  extracted : OrderedMap Location Extracted
  /-- the old config of each migrated target -/
  configs : OrderedMap String Location
  skippedTargets : List String
  migratedBases : List String
  /-- the targets with migrated units -/
  touched : List String

namespace Work

/-- Nothing has been done. -/
def start (p : Project) : Work :=
  ⟨p, [], 0, 0, none, [], [], [], [], [], []⟩

/-- Adds a warning about the project. -/
def warn (w : Work) (level : Level) (message : String) : Work :=
  { w with warnings := w.warnings ++ [⟨level, some w.project.name, message⟩] }

/-- Adds warnings about the project. -/
def warnAll (w : Work) (level : Level) (messages : List String) : Work :=
  messages.foldl (fun w m => w.warn level m) w

end Work

/-- Adds a name that is new. -/
def note (names : List String) (n : String) : List String :=
  if names.contains n then names else names ++ [n]

/-- What to tell about a path that could not be moved. -/
def unresolvedPath (literal callee : String) (config : Location) : String :=
  "Could not relocate '" ++ literal ++ "' in " ++ callee ++ "(...) from " ++ config.path.text ++
    "; update it by hand"

/-- Relocates the fragment of a callee to the root of a project. -/
def relocate (m : Migration) (p : Project) (config : Location) (state : Extracted × List String)
    (callee : String) : Extracted × List String :=
  match state.1.get? callee with
  | none => state
  | some f =>
    let n := Relocation.normalize m.profile.keys f ⟨""⟩ p.root
    (state.1.set callee (some n.fragment),
      state.2 ++ n.unresolved.map fun literal => unresolvedPath literal callee config)

/-- The fragments of an old config, relocated to the root of a project, with a
warning for each path that could not be moved. -/
def extract (m : Migration) (t : Staging) (p : Project) (config : Location) :
    Except Failure (Extracted × List String) := do
  let e ← Extraction.ofFile false m.profile.callees t config.path
  return (e.entries.map Prod.fst).foldl (m.relocate p config) (e, [])

/-- Reads an old config and stages the new one; a config that was read before
is done already. -/
def replaceConfig (m : Migration) (t : Staging) (w : Work) (config : Location) :
    Staging × Except Failure Work :=
  if w.extracted.has config then (t, .ok w)
  else
    match m.extract t w.project config with
    | .error f => (t, .error f)
    | .ok (e, unresolved) =>
      let w := { w.warnAll .warn unresolved with extracted := w.extracted.insert config e }
      match m.profile.config.synthesize t config.path e with
      | (u, .error f) => (u, .error f)
      | (u, .ok s) => (u, .ok { w.warnAll .info s.warnings with config := some s.path })

/-- Gives up the old config of a variant, or tells that it stays. -/
def releaseVariant (m : Migration) (w : Work) (u : Unit_) (target : Target) : Target × Work :=
  match u.configuration with
  | none => (target, w)
  | some name =>
    let (target, kept) :=
      m.profile.reduction.releaseOverride target name (w.configs.get? u.target)
    match kept with
    | none => (target, w)
    | some path => (target, w.warn .warn (u.label ++ ": " ++ Reduction.unmergedOverride name path))

/-- Strips a unit of a target and counts it. -/
def stripUnit (m : Migration) (w : Work) (u : Unit_) (target : Target) : Work :=
  let (target, w) := m.releaseVariant w u target
  let (target, messages) := m.profile.reduction.stripUnit target u.configuration
  let w := w.warnAll .warn (messages.map fun s => fillIn s w.project)
  { w with
    project := w.project.setTarget u.target target
    migratedBases := if u.isBase then note w.migratedBases u.target else w.migratedBases
    touched := note w.touched u.target
    migrated := w.migrated + 1 }

/-- Skips a base unit. -/
def skipUnit (w : Work) (u : Unit_) (reason : String) : Work :=
  let w := w.warn .warn ("Skipped " ++ u.label ++ ": " ++ reason)
  { w with
    skipped := w.skipped + 1
    reasons := w.reasons ++ [reason]
    skippedTargets := note w.skippedTargets u.target }

/-- Migrates a unit. -/
def migrateUnit (m : Migration) (t : Staging) (w : Work) (u : Unit_) :
    Staging × Except Failure Work :=
  match OrderedMap.get? w.project.targets u.target with
  | none => (t, .ok w)
  | some target =>
    match m.classify t u target with
    | .notApplicable => (t, .ok w)
    | .skipped reason => (t, .ok (skipUnit w u reason))
    | .variant =>
      if w.skippedTargets.contains u.target then (t, .ok w)
      else (t, .ok (m.stripUnit w u target))
    | .migratable none => (t, .ok (m.stripUnit w u target))
    | .migratable (some config) =>
      match m.replaceConfig t w config with
      | (t, .error f) => (t, .error f)
      | (t, .ok w) =>
        let w := { w with configs := OrderedMap.insert w.configs u.target config }
        (t, .ok (m.stripUnit w u target))

/-- Migrates units up to the first failure. -/
def migrateUnits (m : Migration) (t : Staging) (w : Work) : List Unit_ →
    Staging × Except Failure Work
  | [] => (t, .ok w)
  | u :: rest =>
    match m.migrateUnit t w u with
    | (t, .error f) => (t, .error f)
    | (t, .ok w) => migrateUnits m t w rest

/-- Tidies a target.  One whose default options were migrated loses its
executor, and goes if nothing is left of it. -/
def settleTarget (bases : List String) (p : Project) (name : String) : Project :=
  match OrderedMap.get? p.targets name with
  | none => p
  | some target =>
    let target := Reduction.tidy target
    if bases.contains name then
      let target := target.removeExecutor
      if target.isEmpty then p.removeTarget name else p.setTarget name target
    else p.setTarget name target

/-- The project with all its touched targets tidied. -/
def settle (w : Work) : Project :=
  w.touched.foldl (settleTarget w.migratedBases) w.project

/-- Stages the document of a project and flushes; gives the paths written. -/
def saveProject (m : Migration) (t : Staging) (p : Project) :
    Staging × Except Failure (List Location) :=
  match t.write p.configPath.location p.toText with
  | .error f => (t, .error f)
  | .ok u => if m.dryRun then (u, .ok []) else u.flush

/-- Migrates the units of a project; gives what was done and the paths
written.  Without a migrated unit nothing is staged for the document. -/
def migrateProject (m : Migration) (t : Staging) (p : Project) (units : List Unit_) :
    Staging × Except Failure (Work × List Location) :=
  match m.migrateUnits t (.start p) units with
  | (t, .error f) => (t, .error f)
  | (t, .ok w) =>
    if w.migrated = 0 then (t, .ok (w, []))
    else
      let p := settle w
      match m.saveProject t p with
      | (t, .error f) => (t, .error f)
      | (t, .ok written) => (t, .ok ({ w with project := p }, written))

end Retarget.Migration
