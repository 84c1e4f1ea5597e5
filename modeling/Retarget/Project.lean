import Retarget.Json.Reader
import Retarget.Path
import Retarget.Target

/-!
# Projects

A `Project` is read from its document and written back to it.  Everything in
the document apart from the targets stays as it was read.
-/

namespace Retarget

/-- A project and its targets. -/
structure Project where
  name : String
  /-- the directory of the project in the workspace -/
  root : Path
  /-- the path of the document -/
  configPath : Path
  targets : OrderedMap String Target
  /-- the document, its targets aside -/
  document : Members
  deriving Repr

namespace Project

/-- The file name of project documents. -/
def fileName : String := "project.json"

/-- A project without targets. -/
def ofRoot (name : String) (root : Path) : Project :=
  ⟨name, root, root.join ⟨fileName⟩, [], []⟩

/-- The targets that a field of a document holds. -/
def readTargets : List (String × Json) → Except Failure (OrderedMap String Target)
  | [] => .ok []
  | (name, .object m) :: rest => do
    let ts ← readTargets rest
    return (name, ⟨m⟩) :: ts
  | (_, v) :: _ => .error (.json (Json.unexpected v "a map"))

/-- A field of a document that holds a string. -/
def stringField? (m : Members) (key : String) : Option String :=
  (m.get? key).bind Json.string?

/-- Reads a project from the document at a path.  Its root is the directory of
the document unless the document says otherwise, and so is its name. -/
def ofText (configPath : Path) (text : String) : Except Failure Project := do
  match ← Json.ofText text with
  | .object document =>
    let dir := configPath.parent?.getD ⟨""⟩
    let root := ((stringField? document "root").map Path.mk).getD dir
    match (stringField? document "name") <|> dir.fileName? with
    | none =>
      .error (.invalidProject configPath "project has no name and sits at the workspace root")
    | some name =>
      match OrderedMap.get? document "targets" with
      | none => return ⟨name, root, configPath, [], document⟩
      | some .null => return ⟨name, root, configPath, [], document⟩
      | some (.object ts) =>
        return ⟨name, root, configPath, ← readTargets ts, OrderedMap.insert document "targets" .null⟩
      | some _ => .error (.invalidProject configPath "'targets' must be an object")
  | _ => .error (.invalidProject configPath "expected a JSON object")

/-- The targets as one value. -/
def targetsJson (p : Project) : Json :=
  .object (p.targets.map fun t => (t.1, t.2.toJson))

/-- The document with the current targets and a name. -/
def toDocument (p : Project) : Members :=
  let d := p.document
  let d := if p.targets.isEmpty && !d.has "targets" then d else d.insert "targets" p.targetsJson
  if d.has "name" then d else d.insert "name" (.string p.name)

/-- The text of the document. -/
def toText (p : Project) : String :=
  (Json.object p.toDocument).pretty ++ "\n"

/-- The same project with a target changed. -/
def setTarget (p : Project) (name : String) (t : Target) : Project :=
  { p with targets := p.targets.insert name t }

/-- The same project without a target. -/
def removeTarget (p : Project) (name : String) : Project :=
  { p with targets := p.targets.remove name }

end Project

end Retarget
