import Retarget.Migration.ProjectWork

/-!
# Running a migration

`Migration.run` migrates the projects in scope one after the other.  A project
that fails is rolled back and reported, and the run goes on; a run that migrates
nothing fails as a whole.  `Migration.runWith` also hands the files written to a
formatter.
-/

namespace Retarget.Migration

/-- Where a run stands. -/
structure State where
  staging : Staging
  workspace : Workspace
  report : Report

/-- What a run leaves behind: the state, and the failure if it failed. -/
structure Run where
  staging : Staging
  workspace : Workspace
  result : Except Failure Report

/-- Migrates a project and reports about it. -/
def step (m : Migration) (s : State) (p : Project) : State :=
  let units := Workspace.unitsOfProject m.profile.executor p
  if units.isEmpty then s
  else
    match m.migrateProject s.staging p units with
    | (t, .ok (w, written)) =>
      let r := { s.report with
        warnings := s.report.warnings ++ w.warnings
        written := s.report.written ++ written.map Location.path }
      if w.migrated = 0 then
        { s with staging := t, report := r.addSkipped p.name w.skipped ("; ".intercalate w.reasons) }
      else
        { staging := t
          workspace := s.workspace.put w.project
          report := { r with skipped := r.skipped + w.skipped }.addMigrated p.name w.migrated
            w.config }
    | (t, .error f) =>
      let r := s.report.warn .error (some p.name) f.message
      { s with
        staging := t.rollback s.staging.mark
        report := r.addSkipped p.name (units.countP Unit_.isBase) f.message }

/-- The lines that all changes add and remove. -/
def countChanges (t : Staging) : LineCount :=
  t.changes.foldl (fun n c => n.add (.between (c.before.getD "") (c.after.getD ""))) .zero

/-- Runs a migration. -/
def run (m : Migration) (t : Staging) (w : Workspace) : Run :=
  match m.project with
  | some name =>
    if (w.project? name).isNone then ⟨t, w, .error (.projectNotFound name)⟩ else go
  | none => go
where
  /-- Runs over the projects in scope. -/
  go : Run :=
    let s := (w.inScope m.project).foldl m.step ⟨t, w, { Report.empty with dryRun := m.dryRun }⟩
    match s.report.result with
    | .error f => ⟨s.staging, s.workspace, .error f⟩
    | .ok r => ⟨s.staging, s.workspace, .ok { r with lineCount := countChanges s.staging }⟩

/-- Formats files in a directory; gives their number. -/
abbrev Formatter := Disk → List Path → Disk × Except Failure Nat

/-- Hands the files that a run wrote to a formatter, if there is a directory
that they were written to. -/
def format (f : Formatter) (r : Run) : Run :=
  match r.result, r.staging.disk with
  | .ok report, some d =>
    if report.dryRun then r
    else
      let (d, result) := f d report.written
      let report := match result with
        | .ok _ => report
        | .error e => report.warn .warn none ("Formatting skipped: " ++ e.message)
      { r with staging := { r.staging with disk := some d }, result := .ok report }
  | _, _ => r

/-- Runs a migration and formats the files written. -/
def runWith (m : Migration) (f : Option Formatter) (t : Staging) (w : Workspace) : Run :=
  match f with
  | none => m.run t w
  | some f => format f (m.run t w)

end Retarget.Migration
