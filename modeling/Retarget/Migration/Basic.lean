import Retarget.Profile
import Retarget.Report
import Retarget.Text.Replace
import Retarget.Workspace

/-!
# Migrations

A `Migration` is a profile with the choice of projects and whether anything is
written.  `Migration.classify` says what happens to a unit.
-/

namespace Retarget

/-- A configured migration. -/
structure Migration where
  profile : Profile
  /-- the only project to migrate, if there is one -/
  project : Option String
  /-- whether changes are staged only -/
  dryRun : Bool
  deriving DecidableEq, Repr

namespace Migration

/-- What happens to a unit. -/
inductive Class where
  /-- its target has another executor -/
  | notApplicable
  /-- a configuration, which is stripped -/
  | variant
  /-- default options, with the old config file if the profile uses one -/
  | migratable (config : Option Location)
  /-- default options that stay, and why -/
  | skipped (reason : String)
  deriving DecidableEq, Repr

/-- What happens to a unit of a target. -/
def classify (m : Migration) (t : Staging) (u : Unit_) (target : Target) : Class :=
  if target.executor? ≠ some m.profile.executor then .notApplicable
  else if !u.isBase then .variant
  else match m.profile.legacyKey with
    | none => .migratable none
    | some key =>
      match target.optionString? key with
      | none => .skipped (u.label ++ " has no '" ++ key ++ "' option")
      | some path =>
        if path = "" then .skipped (u.label ++ " has no '" ++ key ++ "' option")
        else if t.exists_ (Path.mk path).location then
          .migratable (some (Path.mk path).location)
        else .skipped (path ++ " does not exist")

/-- Fills the name and root of a project into a message. -/
def fillIn (message : String) (p : Project) : String :=
  Text.replaceAll (Text.replaceAll message "\x7bproject\x7d" p.name) "\x7broot\x7d" p.root.text

end Migration

end Retarget
