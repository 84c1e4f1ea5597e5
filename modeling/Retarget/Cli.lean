import Retarget.Cli.Help
import Retarget.Disk.Branch
import Retarget.Formatting
import Retarget.Migration.Run
import Retarget.Profile.Source
import Retarget.Repository
import Retarget.Workspace.Discovery

/-!
# The command line

`Cli.run` answers the words of a command line in a directory.  It gives the
directory afterwards and a `Reply`: what is printed, the error if there is one,
and the code.  A workspace is a folder of the directory, and its paths start
there.
-/

namespace Retarget.Cli

/-- What a command says. -/
structure Reply where
  code : Nat
  stdout : String
  error : Option String
  deriving DecidableEq, Repr

/-- What was being done when it failed, with the failure. -/
structure Complaint where
  doing : String
  cause : Option Failure
  deriving DecidableEq, Repr

namespace Complaint

/-- A text with its later lines moved to the right. -/
def indent (first other text : String) : String :=
  first ++ ("\n" ++ other).intercalate
    ((Text.splitAtAll (· = '\n') text.toList).map String.ofList)

/-- The wording of a failure and of what it goes back to. -/
def causes (f : Failure) : String :=
  match f.source? with
  | none => indent "    " "    " f.message
  | some source =>
    indent "    0: " "       " f.message ++ "\n" ++ indent "    1: " "       " source

/-- The wording of a complaint. -/
def text (c : Complaint) : String :=
  "Error: " ++ c.doing ++
    (match c.cause with
      | none => ""
      | some f => "\n\nCaused by:\n" ++ causes f) ++ "\n"

end Complaint

namespace Reply

/-- The reply to a request that was served. -/
def done (stdout : String) : Reply :=
  ⟨0, stdout, none⟩

/-- The reply to a request that failed. -/
def failed (c : Complaint) : Reply :=
  ⟨1, "", some c.text⟩

/-- The reply to words that spell no request. -/
def misuse : Reply :=
  ⟨2, "", none⟩

end Reply

/-- Names what was being done when something failed. -/
def doing {α : Type} (what : String) : Except Failure α → Except Complaint α
  | .ok a => .ok a
  | .error f => .error ⟨what, some f⟩

/-- The folder of a workspace, if it is there. -/
def folder? (d : Disk) (p : Path) : Option (List String) :=
  match d.find p.location with
  | .ok names => if d.entry? names = some .folder then some names else none
  | .error _ => none

/-- The formatter that a migration asks for. -/
def formatter (programs : Programs) (o : MigrateOptions) :
    Except Complaint (Option Migration.Formatter) :=
  let named : Except Complaint Command := match o.formatter with
    | none => .ok Formatting.defaultFormatter
    | some line =>
      match Command.ofLine? line with
      | some c => .ok c
      | none => .error ⟨"Formatter command is empty", none⟩
  named.map fun c => if o.skipFormat then none else some (Formatting.run programs c)

/-- Refuses a workspace with uncommitted files. -/
def checkCommitted (d : Disk) (p : Path) : Except Complaint Unit :=
  match Repository.uncommitted d p.location with
  | [] => .ok ()
  | paths => .error ⟨p.text ++ " has " ++ toString paths.length ++
      " uncommitted change(s); commit them or pass --allow-dirty", none⟩

/-- The changes that a run would make. -/
def preview (t : Staging) : String :=
  String.join (t.changes.map fun c =>
    Diff.unified true c.path.path (c.before.getD "") (c.after.getD "") ++ "\n")

/-- Migrates a workspace. -/
def migrate (programs : Programs) (o : MigrateOptions) (d : Disk) :
    Disk × Except Complaint String :=
  let names? := folder? d o.path
  let ready : Except Complaint (Staging × Workspace × Migration × Option Migration.Formatter) := do
    let profile ← doing "Failed to load profile" (Profile.resolve d o.profile)
    if !(o.allowDirty || o.dryRun) then checkCommitted d o.path
    let t := Staging.open ((names?.map d.branch).getD .empty)
    let w ← doing "Failed to read workspace projects" (Workspace.discover t)
    return (t, w, ⟨profile, o.project, o.dryRun⟩, ← formatter programs o)
  match ready with
  | .error c => (d, .error c)
  | .ok (t, w, m, f) =>
    let r := m.runWith f t w
    let left := match names?, r.staging.disk with
      | some names, some below => d.graft names below
      | _, _ => d
    match doing "Migration failed" r.result with
    | .error c => (left, .error c)
    | .ok report => (left, .ok ((if o.dryRun then preview r.staging else "") ++ report.text))

/-- The wording of an extracted fragment, or of its absence. -/
def showEntry (e : String × Option Fragment) : String :=
  match e.2 with
  | some f => e.1 ++ " (line " ++ toString f.line ++ "):\n" ++ f.text ++ "\n\n"
  | none => e.1 ++ ": absent\n\n"

/-- Extracts fragments from a file. -/
def extract (o : ExtractOptions) (d : Disk) : Except Complaint String := do
  let e ← doing ("Failed to extract from " ++ o.file.text)
    (Extraction.ofFile o.strict o.callees (.open d) o.file)
  return String.join (e.entries.map showEntry)

/-- A line of a table whose first column has a fixed width. -/
def row (first second : String) : String :=
  "  " ++ first ++ String.ofList (List.replicate (14 - first.length) ' ') ++ " " ++ second ++ "\n"

/-- The wording of the profiles that need no file. -/
def profileTable : String :=
  "Built-in profiles:\n\n" ++ String.join (Profile.builtins.map fun p =>
    row p.name p.executor ++ (if p.description = "" then "" else row "" p.description))

/-- The reply to an answer. -/
def replyOf : Except Complaint String → Reply
  | .ok s => .done s
  | .error c => .failed c

/-- Answers the words of a command line in a directory. -/
def run (programs : Programs) (words : List String) (d : Disk) : Disk × Reply :=
  match Request.ofWords words with
  | none => (d, .misuse)
  | some (.help t) => (d, .done t.text)
  | some .version => (d, .done Topic.version)
  | some .profiles => (d, .done profileTable)
  | some (.extract o) => (d, replyOf (extract o d))
  | some (.migrate o) =>
    let (left, answer) := migrate programs o d
    (left, replyOf answer)

/-- Words that spell no request change nothing and print nothing. -/
theorem run_of_misuse {programs : Programs} {words : List String} {d : Disk}
    (h : Request.ofWords words = none) : run programs words d = (d, ⟨2, "", none⟩) := by
  simp [run, h, Reply.misuse]

end Retarget.Cli
