import Retarget.Path

/-!
# Failures

`Failure` lists what can go wrong, by cause, and `Failure.message` words each
cause.  A failure found in a text is bound to the path of its file only later,
by `Failure.atPath`.
-/

namespace Retarget

/-- What can go wrong. -/
inductive Failure where
  /-- a file operation -/
  | io (reason : String)
  /-- a JSON text -/
  | json (reason : String)
  /-- a YAML text -/
  | yaml (reason : String)
  /-- a file pattern -/
  | glob (reason : String)
  /-- a tree query -/
  | query (reason : String)
  /-- a repository -/
  | git (reason : String)
  /-- a text that is no program -/
  | parse (path : Path) (line column : Nat) (reason : String)
  /-- a file in no known language -/
  | unsupportedLanguage (extension : String)
  /-- a call that should be the only one -/
  | ambiguousMatch (path : Path) (callee : String) (count : Nat)
  /-- a file where the archive should go -/
  | archiveExists (path : Path)
  /-- a file that is not there -/
  | fileNotFound (path : Path)
  /-- a project that is not there -/
  | projectNotFound (name : String)
  /-- a profile that cannot be used -/
  | invalidProfile (reason : String)
  /-- a project document that cannot be used -/
  | invalidProject (path : Path) (reason : String)
  /-- a command that failed -/
  | process (command reason : String)
  /-- a run that found nothing to do -/
  | nothingMigrated
  deriving DecidableEq, Repr

namespace Failure

/-- The wording of a failure. -/
def message : Failure → String
  | io r => "IO error: " ++ r
  | json r => "JSON error: " ++ r
  | yaml r => "YAML error: " ++ r
  | glob r => "Glob pattern error: " ++ r
  | query r => "Tree-sitter query error: " ++ r
  | git r => "Git error: " ++ r
  | parse p l c r =>
    "Parse error in " ++ p.text ++ ":" ++ toString l ++ ":" ++ toString c ++ ": " ++ r
  | unsupportedLanguage e => "Language not supported: " ++ e
  | ambiguousMatch p c n =>
    "'" ++ c ++ "' is called " ++ toString n ++ " times in " ++ p.text ++
      "; expected exactly one call"
  | archiveExists p => "Cannot archive to " ++ p.text ++ ": file already exists"
  | fileNotFound p => "File not found: " ++ p.text
  | projectNotFound n => "Project not found: " ++ n
  | invalidProfile r => "Invalid migration profile: " ++ r
  | invalidProject p r => "Invalid project configuration in " ++ p.text ++ ": " ++ r
  | process c r => "Process '" ++ c ++ "' failed: " ++ r
  | nothingMigrated => "Could not find any projects to migrate"

/-- What a failure goes back to, where that is a failure of something else. -/
def source? : Failure → Option String
  | io r | json r | yaml r | glob r | query r | git r => some r
  | _ => none

/-- The same failure in a given file; only failures found in a text carry a
path that is not known at first. -/
def atPath (p : Path) : Failure → Failure
  | parse _ l c r => parse p l c r
  | ambiguousMatch _ c n => ambiguousMatch p c n
  | f => f

end Failure

end Retarget
