import Retarget.Text.Blank

/-!
# Paths

A `Path` is a text as somebody wrote it.  What it says is its list of steps:
repeated slashes, a closing slash and a `.` inside it say nothing.  A
`Location` is such a list without the leading `.`, so two spellings of one
place have one location, and `Location.path` spells it in its plainest way.

`Path.join`, `Path.parent?` and `Path.withFileName` work on the text and leave
the untouched part of it as it was written.
-/

namespace Retarget

/-- One step of a path. -/
inductive Step where
  /-- to the root of all paths -/
  | root
  /-- to stay, written `.` -/
  | here
  /-- to the parent, written `..` -/
  | up
  /-- to the entry with a name -/
  | name (s : String)
  deriving DecidableEq, Repr

/-- A path as somebody wrote it. -/
structure Path where
  text : String
  deriving DecidableEq, Repr, Inhabited

/-- A place in a tree of files: steps without `.`. -/
abbrev Location := List Step

namespace Step

/-- The spelling of a step. -/
def text : Step → String
  | root => "/"
  | here => "."
  | up => ".."
  | name s => s

/-- The step that a piece between two slashes spells; an empty piece spells
none. -/
def ofPiece? (piece : List Char) : Option Step :=
  if piece = [] then none
  else if piece = ['.'] then some here
  else if piece = ['.', '.'] then some up
  else some (name (String.ofList piece))

end Step

namespace Path

/-- The steps that pieces spell from a given character on, each with the number
of characters up to its end.  `first` says that nothing stands before. -/
def mark (first : Bool) (pos : Nat) : List (List Char) → List (Step × Nat)
  | [] => []
  | piece :: rest =>
    let stop := pos + piece.length
    let later := mark false (stop + 1) rest
    match Step.ofPiece? piece with
    | none => later
    | some .here => if first then (.here, stop) :: later else later
    | some s => (s, stop) :: later

/-- The steps of a text with the number of characters up to the end of each. -/
def marks (cs : List Char) : List (Step × Nat) :=
  let pieces := Text.splitAtAll (· == '/') cs
  match cs with
  | '/' :: _ => (.root, 1) :: mark false 0 pieces
  | _ => mark true 0 pieces

/-- The steps of a path. -/
def steps (p : Path) : List Step :=
  (marks p.text.toList).map Prod.fst

/-- The place a path denotes. -/
def location (p : Path) : Location :=
  p.steps.filter (· ≠ .here)

/-- Whether a path starts at the root of all paths. -/
def isAbsolute (p : Path) : Bool :=
  p.text.toList.head? = some '/'

/-- One path below another; an absolute path stands for itself. -/
def join (a b : Path) : Path :=
  if b.isAbsolute || a.text = "" then b
  else if a.text.toList.getLast? = some '/' then ⟨a.text ++ b.text⟩
  else ⟨a.text ++ "/" ++ b.text⟩

/-- The path without its last step; the empty path and the root have none. -/
def parent? (p : Path) : Option Path :=
  match (marks p.text.toList).reverse with
  | [] => none
  | (.root, _) :: _ => none
  | [_] => some ⟨""⟩
  | _ :: (_, n) :: _ => some ⟨String.ofList (p.text.toList.take n)⟩

/-- The name that a path ends with. -/
def fileName? (p : Path) : Option String :=
  match p.steps.getLast? with
  | some (.name s) => some s
  | _ => none

/-- The path with its file name replaced; one without a file name is
extended. -/
def withFileName (p : Path) (name : String) : Path :=
  match p.fileName? with
  | none => p.join ⟨name⟩
  | some _ => (p.parent?.getD ⟨""⟩).join ⟨name⟩

/-- Splits a name at its last dot, unless that dot opens it. -/
def splitExtension (name : List Char) : List Char × Option (List Char) :=
  let after := (name.reverse.takeWhile (· ≠ '.')).reverse
  let before := name.take (name.length - after.length - 1)
  if after.length = name.length || before = [] then (name, none) else (before, some after)

/-- The file name without its extension. -/
def fileStem? (p : Path) : Option String :=
  p.fileName?.map fun n => String.ofList (splitExtension n.toList).1

/-- The extension of the file name. -/
def extension? (p : Path) : Option String :=
  p.fileName?.bind fun n => (splitExtension n.toList).2.map String.ofList

end Path

namespace Location

/-- The plainest spelling of a place, in characters. -/
def chars : Location → List Char
  | [] => []
  | [s] => s.text.toList
  | .root :: rest => '/' :: chars rest
  | s :: rest => s.text.toList ++ '/' :: chars rest

/-- The plainest spelling of a place. -/
def path (l : Location) : Path :=
  ⟨String.ofList l.chars⟩

/-- The place without its last step. -/
def parent (l : Location) : Location :=
  l.dropLast

end Location

/-- A location never says `.`. -/
theorem Path.here_not_mem_location (p : Path) : Step.here ∉ p.location := by
  simp [Path.location]

/-- Joining the empty path to the front changes nothing. -/
theorem Path.empty_join (p : Path) : Path.join ⟨""⟩ p = p := by
  simp [Path.join]

end Retarget
