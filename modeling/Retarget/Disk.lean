import Retarget.Error
import Retarget.OrderedMap
import Retarget.Text.Utf8

/-!
# Directories of files

A `Disk` is the content of one directory: what stands at each list of names
below it.  Locations are followed step by step, so `..` leads out of a folder
that must be there.  Reading and writing fail the way a file system does, with
a `Fault`.
-/

namespace Retarget

/-- What a file holds: a text, or bytes that are none. -/
inductive Content where
  | text (s : String)
  | raw (bytes : List UInt8)
  deriving DecidableEq, Repr

namespace Content

/-- The content with the given bytes. -/
def ofBytes (bytes : List UInt8) : Content :=
  match Text.decode? bytes with
  | some s => text s
  | none => raw bytes

/-- The bytes of a content. -/
def bytes : Content → List UInt8
  | text s => Text.encode s
  | raw b => b

end Content

/-- What stands somewhere in a directory. -/
inductive Entry where
  | folder
  | file (c : Content)
  deriving DecidableEq, Repr

/-- The content of a directory.  The directory itself has no name and is always
there. -/
structure Disk where
  entries : OrderedMap (List String) Entry
  deriving DecidableEq, Repr

namespace Disk

/-- Why a file operation failed. -/
inductive Fault where
  | notThere
  | alreadyThere
  | notFolder
  | isFolder
  | notText
  | denied
  deriving DecidableEq, Repr

/-- The wording of a fault. -/
def Fault.message : Fault → String
  | notThere => "No such file or directory (os error 2)"
  | alreadyThere => "File exists (os error 17)"
  | notFolder => "Not a directory (os error 20)"
  | isFolder => "Is a directory (os error 21)"
  | notText => "stream did not contain valid UTF-8"
  | denied => "Permission denied (os error 13)"

/-- A fault as a failure. -/
def Fault.failure (f : Fault) : Failure :=
  .io f.message

/-- The empty directory. -/
def empty : Disk :=
  ⟨[]⟩

/-- What stands under a list of names. -/
def entry? (d : Disk) (names : List String) : Option Entry :=
  if names = [] then some .folder else d.entries.get? names

/-- Follows steps from a folder. -/
def follow (d : Disk) (at_ : List String) : List Step → Except Fault (List String)
  | [] => .ok at_
  | s :: rest =>
    match d.entry? at_ with
    | none => .error .notThere
    | some (.file _) => .error .notFolder
    | some .folder =>
      match s with
      | .name n => follow d (at_ ++ [n]) rest
      | .here => follow d at_ rest
      | .up => if at_ = [] then .error .notThere else follow d at_.dropLast rest
      | .root => .error .notThere

/-- The names of a location. -/
def find (d : Disk) (l : Location) : Except Fault (List String) :=
  d.follow [] l

/-- What stands at a location. -/
def at? (d : Disk) (l : Location) : Option Entry :=
  match d.find l with
  | .ok names => d.entry? names
  | .error _ => none

/-- Whether a file stands at a location. -/
def isFile (d : Disk) (l : Location) : Bool :=
  match d.at? l with
  | some (.file _) => true
  | _ => false

/-- Whether a folder stands at a location. -/
def isFolder (d : Disk) (l : Location) : Bool :=
  d.at? l = some .folder

/-- The content of the file at a location. -/
def content (d : Disk) (l : Location) : Except Fault Content := do
  match d.entry? (← d.find l) with
  | none => .error .notThere
  | some .folder => .error .isFolder
  | some (.file c) => .ok c

/-- The text of the file at a location. -/
def readText (d : Disk) (l : Location) : Except Fault String := do
  match ← d.content l with
  | .text s => .ok s
  | .raw _ => .error .notText

/-- Puts an entry under a list of names. -/
def put (d : Disk) (names : List String) (e : Entry) : Disk :=
  ⟨d.entries.insert names e⟩

/-- Makes one folder. -/
def makeFolder (d : Disk) (l : Location) : Except Fault Disk := do
  match l.getLast? with
  | some (.name n) =>
    let above ← d.find l.dropLast
    match d.entry? above with
    | none => .error .notThere
    | some (.file _) => .error .notFolder
    | some .folder =>
      match d.entry? (above ++ [n]) with
      | some _ => .error .alreadyThere
      | none => .ok (d.put (above ++ [n]) .folder)
  | _ =>
    let _ ← d.find l
    .error .alreadyThere

/-- Makes a folder and those above it; one that is there already will do. The
steps are given from the innermost outwards. -/
def makeFoldersAt (d : Disk) : List Step → Except Fault Disk
  | [] => .ok d
  | s :: above =>
    let l := (s :: above).reverse
    match d.makeFolder l with
    | .ok e => .ok e
    | .error .notThere =>
      match makeFoldersAt d above with
      | .error f => .error f
      | .ok e =>
        match e.makeFolder l with
        | .ok e' => .ok e'
        | .error f => if e.isFolder l then .ok e else .error f
    | .error f => if d.isFolder l then .ok d else .error f

/-- Makes a folder and those above it; one that is there already will do. -/
def makeFolders (d : Disk) (l : Location) : Except Fault Disk :=
  d.makeFoldersAt l.reverse

/-- Writes a file into a folder that is there. -/
def writeContent (d : Disk) (l : Location) (c : Content) : Except Fault Disk := do
  match l.getLast? with
  | some (.name n) =>
    let above ← d.find l.dropLast
    match d.entry? above with
    | none => .error .notThere
    | some (.file _) => .error .notFolder
    | some .folder =>
      match d.entry? (above ++ [n]) with
      | some .folder => .error .isFolder
      | _ => .ok (d.put (above ++ [n]) (.file c))
  | _ =>
    let _ ← d.find l
    .error .isFolder

/-- Writes a text into a file. -/
def writeText (d : Disk) (l : Location) (s : String) : Except Fault Disk :=
  d.writeContent l (.text s)

/-- Removes a file. -/
def removeFile (d : Disk) (l : Location) : Except Fault Disk := do
  let names ← d.find l
  match d.entry? names with
  | none => .error .notThere
  | some .folder => .error .isFolder
  | some (.file _) => .ok ⟨d.entries.remove names⟩

/-- Moves a file, over another file if there is one. -/
def move (d : Disk) (source target : Location) : Except Fault Disk := do
  let old ← d.find source
  let new ← d.find target
  let c ← d.content source
  let e ← d.writeContent target c
  if new = old then .ok e else .ok ⟨e.entries.remove old⟩

/-- Puts a file where it belongs and makes the folders above it. -/
def addFile (d : Disk) (l : Location) (c : Content) : Except Fault Disk := do
  (← d.makeFolders l.dropLast).writeContent l c

/-- Puts something named before what does not have a smaller name. -/
def placeByName {α : Type} (x : String × α) : List (String × α) → List (String × α)
  | [] => [x]
  | y :: ys => if x.1 ≤ y.1 then x :: y :: ys else y :: placeByName x ys

/-- Sorts by name; what has the same name stays in order. -/
def sortByName {α : Type} (xs : List (String × α)) : List (String × α) :=
  xs.foldr placeByName []

/-- The entries right below a folder, sorted by name. -/
def children (d : Disk) (names : List String) : List (String × Entry) :=
  let below := d.entries.filterMap fun (k, e) =>
    if k.dropLast = names then k.getLast?.map fun n => (n, e) else none
  sortByName below

/-- All files with their names joined, sorted by the joined names. -/
def files (d : Disk) : List (String × Content) :=
  let fs := d.entries.filterMap fun (k, e) =>
    match e with
    | .folder => none
    | .file c => some ("/".intercalate k, c)
  sortByName fs

end Disk

end Retarget
