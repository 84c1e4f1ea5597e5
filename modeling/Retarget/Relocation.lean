import Retarget.Path

/-!
# Relocating a path

A path written for one host directory is spelled anew for another one:
`rebase` resolves it from the old host and expresses the place it reaches from
the new one.  Both hosts lie in one workspace, and a path that leaves the
workspace has no place.
-/

namespace Retarget

namespace Location

/-- Follows steps from a directory of the workspace, given by its names from
the innermost outwards; climbing out or starting at the root of all paths
fails. -/
def follow (at_ : List String) : List Step → Option (List String)
  | [] => some at_
  | .here :: rest => follow at_ rest
  | .name s :: rest => follow (s :: at_) rest
  | .up :: rest =>
    match at_ with
    | [] => none
    | _ :: outer => follow outer rest
  | .root :: _ => none

/-- The names on the way from the workspace to what steps reach. -/
def resolve (steps : List Step) : Option (List String) :=
  (follow [] steps).map List.reverse

end Location

namespace Path

/-- The names on the way from the workspace to a path. -/
def resolve (p : Path) : Option (List String) :=
  Location.resolve p.steps

/-- Drops what two lists have in common at their heads. -/
def dropCommon : List String → List String → List String × List String
  | a :: as, b :: bs => if a = b then dropCommon as bs else (a :: as, b :: bs)
  | as, bs => (as, bs)

/-- The names that lead from a directory to a target, climbing first. -/
def leading (target base : List String) : List String :=
  let (ahead, behind) := dropCommon target base
  behind.map (fun _ => "..") ++ ahead

/-- Spells a path written for one host so that it reaches the same place from
another; a closing slash stays. -/
def rebase (literal : String) (old new : Path) : Option String :=
  match (old.join ⟨literal⟩).resolve, new.resolve with
  | some target, some base =>
    let names := leading target base
    let plain := if names = [] then "." else "/".intercalate names
    let closed := literal.utf8ByteSize > 1 && literal.toList.getLast? = some '/'
    some (if closed && plain.toList.getLast? ≠ some '/' then plain ++ "/" else plain)
  | _, _ => none

end Path

end Retarget
