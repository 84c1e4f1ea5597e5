import Retarget.Repository.Ignore

/-!
# Uncommitted files

A repository is a folder with a store of its history in `.git`.  The store of
a repository here holds nothing, so every file that is not ignored is
uncommitted.  A folder without tracked files stands for all of them, and one
that holds none that counts is left out.
-/

namespace Retarget.Repository

/-- The folder that holds the store of a repository. -/
def storeName : String := ".git"

/-- Whether a folder is the store of a repository. -/
def isStore (d : Disk) (names : List String) : Bool :=
  let isFolder (n : String) : Bool := d.entry? (names ++ [n]) = some .folder
  let isFile (n : String) : Bool := match d.entry? (names ++ [n]) with
    | some (.file _) => true
    | _ => false
  d.entry? names = some .folder && isFile "HEAD" && isFolder "objects" && isFolder "refs"

/-- The folder of the repository that a folder belongs to, given its names from
the innermost outwards.  A store that is a file hides the repositories
outside. -/
def rootAbove (d : Disk) : List String → Option (List String)
  | [] => here []
  | n :: above =>
    match d.entry? ((n :: above).reverse ++ [storeName]) with
    | some (.file _) => none
    | _ =>
      if isStore d ((n :: above).reverse ++ [storeName]) then some (n :: above).reverse
      else rootAbove d above
where
  /-- The outermost folder, if it is a repository. -/
  here (names : List String) : Option (List String) :=
    if isStore d (names ++ [storeName]) then some names else none

/-- The folder of the repository that a location belongs to. -/
def root? (d : Disk) (l : Location) : Option (List String) :=
  match d.find l with
  | .error _ => none
  | .ok names =>
    match d.entry? names with
    | none => none
    | some (.file _) => rootAbove d names.dropLast.reverse
    | some .folder => rootAbove d names.reverse

/-- The rules of a file, none if it cannot be read. -/
def rulesAt (d : Disk) (names : List String) : List Rule :=
  match d.entry? names with
  | some (.file c) => Rule.ofText (Text.decodeLossy c.bytes)
  | _ => []

/-- What the rules say about a path below the root, those of the nearest folder
first. -/
def verdict (d : Disk) (root names : List String) (isFolder : Bool) : Bool :=
  let levels := (List.range names.length).reverse
  let nearest := levels.findSome? fun k =>
    Rule.verdict (rulesAt d (root ++ names.take k ++ [".gitignore"])) (names.drop k) isFolder
  let shared := Rule.verdict (rulesAt d (root ++ [storeName, "info", "exclude"])) names isFolder
  (nearest <|> shared).getD false

/-- Whether a file below the root is ignored, by itself or with a folder above
it. -/
def isIgnored (d : Disk) (root names : List String) : Bool :=
  (List.range names.length).any fun k =>
    verdict d root (names.take (k + 1)) (k + 1 < names.length)

/-- The files below the root that are neither part of a store nor ignored. -/
def untracked (d : Disk) (root : List String) : List (List String) :=
  d.entries.filterMap fun (k, e) =>
    match e with
    | .folder => none
    | .file _ =>
      let names := k.drop root.length
      if root.isPrefixOf k && !names.contains storeName && !isIgnored d root names then some names
      else none

/-- How an untracked file is listed: a folder stands for all that is in it. -/
def listed : List String → String
  | [] => ""
  | [n] => n
  | n :: _ => n ++ "/"

/-- The uncommitted paths of the repository that a location belongs to, sorted;
none outside of repositories. -/
def uncommitted (d : Disk) (l : Location) : List Path :=
  match root? d l with
  | none => []
  | some root =>
    let all := (untracked d root).map listed
    (all.mergeSort (· ≤ ·)).eraseReps.map Path.mk

end Retarget.Repository
