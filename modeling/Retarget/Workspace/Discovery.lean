import Retarget.FileQuery
import Retarget.Workspace

/-!
# Discovering a workspace

`Workspace.discover` reads every project document below a directory, apart from
those in folders of generated or foreign files.
-/

namespace Retarget.Workspace

/-- The folders that are left out, wherever they are. -/
def ignoredFolders : List String :=
  ["**/node_modules", "**/dist", "**/.git", "**/tmp", "**/.nx"]

/-- Asks for project documents. -/
def documents : FileQuery :=
  { FileQuery.all with names := [Project.fileName], excluded := ignoredFolders }

/-- Reads the project document at a place and adds the project. -/
def load (t : Staging) (w : Workspace) (names : List String) : Except Failure Workspace := do
  let l : Location := names.map .name
  let text ← t.read l
  let p ← Project.ofText l.path text
  w.insert p

/-- The projects of a directory; without one there are none. -/
def discover (t : Staging) : Except Failure Workspace :=
  match t.disk with
  | none => .ok .empty
  | some d => do
    let found ← documents.collect d []
    found.foldlM (load t) .empty

end Retarget.Workspace
