import Retarget.Diff
import Retarget.Error
import Retarget.OrderedMap

/-!
# Reports

A `Report` collects what a run did: an outcome per project, warnings, the files
written, and a count of changed lines.  `Report.text` is its wording.
-/

namespace Retarget

/-- How much a warning matters. -/
inductive Level where
  /-- a default was filled in -/
  | info
  /-- somebody has to follow up -/
  | warn
  /-- a project could not be migrated -/
  | error
  deriving DecidableEq, Repr

namespace Level

/-- The place of a level in the order of levels. -/
def rank : Level → Nat
  | info => 0
  | warn => 1
  | error => 2

/-- The wording of a level. -/
def text : Level → String
  | info => "info"
  | warn => "warning"
  | error => "error"

end Level

/-- A message for the user, about a project or about the whole run. -/
structure Warning where
  level : Level
  project : Option String
  message : String
  deriving DecidableEq, Repr

namespace Warning

/-- The wording of a warning. -/
def text (w : Warning) : String :=
  match w.project with
  | some p => w.level.text ++ " [" ++ p ++ "]: " ++ w.message
  | none => w.level.text ++ ": " ++ w.message

end Warning

/-- What became of a project. -/
inductive Outcome where
  /-- units were migrated, and a config may have been written -/
  | migrated (units : Nat) (config : Option Path)
  /-- nothing was changed -/
  | skipped (reason : String)
  deriving DecidableEq, Repr

/-- What a run did. -/
structure Report where
  migrated : Nat
  skipped : Nat
  warnings : List Warning
  projects : OrderedMap String Outcome
  written : List Path
  dryRun : Bool
  lineCount : LineCount
  deriving DecidableEq, Repr

namespace Report

/-- The report of a run that has not begun. -/
def empty : Report :=
  ⟨0, 0, [], [], [], false, .zero⟩

/-- Notes a migrated project. -/
def addMigrated (r : Report) (project : String) (units : Nat) (config : Option Path) : Report :=
  { r with
    migrated := r.migrated + units
    projects := OrderedMap.insert r.projects project (.migrated units config) }

/-- Notes a skipped project and how many units are lost with it. -/
def addSkipped (r : Report) (project : String) (units : Nat) (reason : String) : Report :=
  { r with
    skipped := r.skipped + units
    projects := OrderedMap.insert r.projects project (.skipped reason) }

/-- Adds a warning. -/
def warn (r : Report) (level : Level) (project : Option String) (message : String) : Report :=
  { r with warnings := r.warnings ++ [⟨level, project, message⟩] }

/-- The warnings of a level or above it. -/
def warningsAt (r : Report) (level : Level) : List Warning :=
  r.warnings.filter fun w => level.rank ≤ w.level.rank

/-- The names of the migrated projects. -/
def migratedProjects (r : Report) : List String :=
  r.projects.filterMap fun (name, o) =>
    match o with
    | .migrated .. => some name
    | .skipped _ => none

/-- The skipped projects with the reasons. -/
def skippedProjects (r : Report) : List (String × String) :=
  r.projects.filterMap fun (name, o) =>
    match o with
    | .migrated .. => none
    | .skipped reason => some (name, reason)

/-- Whether anything was migrated. -/
def succeeded (r : Report) : Bool :=
  0 < r.migrated

/-- The report, if anything was migrated. -/
def result (r : Report) : Except Failure Report :=
  if r.succeeded then .ok r else .error .nothingMigrated

/-- The line about a project. -/
def outcomeLine (name : String) : Outcome → String
  | .migrated units config =>
    "  ✓ " ++ name ++ " (" ++ toString units ++ " target(s)" ++
      (match config with
        | some p => ", rewrote " ++ p.text
        | none => "") ++ ")\n"
  | .skipped reason => "  - " ++ name ++ " skipped: " ++ reason ++ "\n"

/-- The wording of a report. -/
def text (r : Report) : String :=
  (if r.dryRun then "Would migrate " else "Migrated ") ++ toString r.migrated ++
    " target(s), skipped " ++ toString r.skipped ++ "\n" ++
    String.join (r.projects.map fun p => outcomeLine p.1 p.2) ++
    (if r.warnings.isEmpty then ""
      else "\n" ++ String.join (r.warnings.map fun w => w.text ++ "\n")) ++
    (if r.lineCount.files = 0 then "" else "\n" ++ r.lineCount.text ++ "\n")

end Report

end Retarget
