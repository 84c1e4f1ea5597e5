import Retarget.Cli
import Retarget.Shell.Session

/-!
# The program

Reads the working directory, answers the words of the command line in it, and
writes what changed.
-/

namespace Retarget.Main

/-- The deepest folder that is read. -/
def depth : Nat := 64

/-- What is below a folder, read at most so deep. -/
def readBelow : Nat → String → List String → IO (OrderedMap (List String) Entry)
  | 0, _, _ => return []
  | n + 1, folder, names => do
    let dir ← IO.FS.realPath folder
    let mut found := []
    for e in ← dir.readDir do
      let names := names ++ [e.fileName]
      let path := folder ++ "/" ++ e.fileName
      if ← e.path.isDir then
        found := found ++ (names, .folder) :: (← readBelow n path names)
      else
        let bytes ← IO.FS.readBinFile e.path
        found := found ++ [(names, .file (.ofBytes bytes.toList))]
    return found

/-- The path of names below the working directory. -/
def pathOf (names : List String) : String :=
  "./" ++ "/".intercalate names

/-- Writes an entry. -/
def write (names : List String) (e : Entry) : IO Unit :=
  match e with
  | .folder => IO.FS.createDirAll (pathOf names)
  | .file c => do
    IO.FS.createDirAll (pathOf names.dropLast)
    IO.FS.writeBinFile (pathOf names) ⟨c.bytes.toArray⟩

/-- Turns one content of the working directory into another. -/
def update (before after : Disk) : IO Unit := do
  for (names, e) in before.entries do
    match e, after.entry? names with
    | .file _, none => IO.FS.removeFile (pathOf names)
    | _, _ => pure ()
  for (names, e) in after.entries do
    if before.entry? names ≠ some e then write names e

/-- Answers the words of a command line. -/
def run (words : List String) : IO UInt32 := do
  let before : Disk := ⟨← readBelow depth "." []⟩
  let (after, reply) := Cli.run Shell.programs words before
  update before after
  IO.print reply.stdout
  if let some e := reply.error then IO.eprint e
  return UInt32.ofNat reply.code

end Retarget.Main

/-- Runs the program. -/
def main (words : List String) : IO UInt32 :=
  Retarget.Main.run words
