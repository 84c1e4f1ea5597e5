import Retarget.Disk
import Retarget.Glob.Reader

/-!
# Finding files

A `FileQuery` asks for the files below a folder with given names, extensions
and globs.  An excluded folder is not entered at all.
-/

namespace Retarget

/-- What files are wanted.  An empty list of names, extensions or included
globs lets everything through. -/
structure FileQuery where
  names : List String
  /-- extensions without their dot, in any case -/
  extensions : List String
  included : List String
  excluded : List String
  deriving DecidableEq, Repr

namespace FileQuery

/-- Wants all files. -/
def all : FileQuery :=
  ⟨[], [], [], []⟩

/-- Whether one of some globs matches a relative path. -/
def anyMatches (globs : List Glob) (rel : List String) : Bool :=
  globs.any fun g => g.matchesText ("/".intercalate rel)

/-- Whether a file has a wanted name. -/
def hasName (q : FileQuery) (name : String) : Bool :=
  q.names.isEmpty || q.names.contains name

/-- Whether a file has a wanted extension; capital letters of ASCII count as
small ones. -/
def hasExtension (q : FileQuery) (name : String) : Bool :=
  let e := ((Path.mk name).extension?.getD "").toLower
  q.extensions.isEmpty || q.extensions.any fun x => x.toLower = e

/-- The files at and below a place, given by its names and its names relative
to the start; folders that `enter` refuses are left out.  `depth` bounds how
deep folders nest. -/
def walk (d : Disk) (enter : List String → Bool) :
    Nat → List String → List String → List (List String × List String)
  | 0, _, _ => []
  | depth + 1, names, rel =>
    match d.entry? names with
    | none => []
    | some (.file _) => [(names, rel)]
    | some .folder =>
      (d.children names).flatMap fun c =>
        if enter (rel ++ [c.1]) then walk d enter depth (names ++ [c.1]) (rel ++ [c.1]) else []

/-- How deep the entries of a disk nest at most. -/
def depthOf (d : Disk) : Nat :=
  d.entries.foldl (fun n e => max n e.1.length) 0

/-- The wanted files below a folder, in the order of a walk that takes entries
by name, where `includes` and `excludes` say which relative paths the globs of
each kind match. -/
def select (q : FileQuery) (includes excludes : List String → Bool) (d : Disk)
    (start : List String) : List (List String) :=
  let files := walk d (fun rel => !excludes rel) (depthOf d + 1) start []
  let wanted := files.filter fun (names, rel) =>
    let name := names.getLast?.getD ""
    q.hasName name && q.hasExtension name && (q.included.isEmpty || includes rel)
  wanted.map Prod.fst

/-- The wanted files below a folder. -/
def collect (q : FileQuery) (d : Disk) (start : List String) :
    Except Failure (List (List String)) := do
  let included ← q.included.mapM Glob.ofText
  let excluded ← q.excluded.mapM Glob.ofText
  return q.select (anyMatches included) (anyMatches excluded) d start

end FileQuery

end Retarget
