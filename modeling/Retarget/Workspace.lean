import Retarget.Project
import Retarget.Staging

/-!
# Workspaces

A `Workspace` holds projects under different names, in the order in which they
were found.  Its units are the targets bound to an executor, each followed by
its configurations.
-/

namespace Retarget

/-- Projects, in order. -/
structure Workspace where
  projects : List Project
  deriving Repr

/-- A part of a target: its default options, or one of its configurations. -/
structure Unit_ where
  project : String
  root : Path
  target : String
  configuration : Option String
  deriving DecidableEq, Repr

namespace Unit_

/-- Whether a unit is the default options of its target. -/
def isBase (u : Unit_) : Bool :=
  u.configuration.isNone

/-- The name of a unit: project, target and configuration. -/
def label (u : Unit_) : String :=
  match u.configuration with
  | some c => u.project ++ ":" ++ u.target ++ ":" ++ c
  | none => u.project ++ ":" ++ u.target

end Unit_

namespace Workspace

/-- No projects. -/
def empty : Workspace :=
  ⟨[]⟩

/-- The project with a name. -/
def project? (w : Workspace) (name : String) : Option Project :=
  w.projects.find? fun p => p.name = name

/-- Puts a project in the place of the one with its name, or at the end. -/
def place (ps : List Project) (p : Project) : List Project :=
  if ps.any fun q => q.name = p.name then ps.map fun q => if q.name = p.name then p else q
  else ps ++ [p]

/-- Replaces the project of the same name, or adds one. -/
def put (w : Workspace) (p : Project) : Workspace :=
  ⟨place w.projects p⟩

/-- A workspace of projects; of two with one name the later one counts. -/
def ofProjects (ps : List Project) : Workspace :=
  ⟨ps.foldl place []⟩

/-- Adds a project; its name must be new. -/
def insert (w : Workspace) (p : Project) : Except Failure Workspace :=
  match w.project? p.name with
  | some q =>
    .error (.invalidProject p.configPath
      ("project name '" ++ p.name ++ "' is already used by " ++ q.configPath.text))
  | none => .ok ⟨w.projects ++ [p]⟩

/-- The number of projects. -/
def size (w : Workspace) : Nat :=
  w.projects.length

/-- The units of a target. -/
def unitsOfTarget (p : Project) (name : String) (t : Target) : List Unit_ :=
  ⟨p.name, p.root, name, none⟩ ::
    t.configurationNames.map fun c => ⟨p.name, p.root, name, some c⟩

/-- The units of a project that are bound to an executor. -/
def unitsOfProject (executor : String) (p : Project) : List Unit_ :=
  (p.targets.filter fun t => t.2.executor? = some executor).flatMap fun t =>
    unitsOfTarget p t.1 t.2

/-- The projects that a filter lets through. -/
def inScope (w : Workspace) (filter : Option String) : List Project :=
  w.projects.filter fun p => filter.all fun n => p.name = n

/-- The units bound to an executor, of all projects or of one. -/
def units (w : Workspace) (executor : String) (filter : Option String) : List Unit_ :=
  (w.inScope filter).flatMap (unitsOfProject executor)

/-- Stages the document of a project. -/
def save (w : Workspace) (t : Staging) (name : String) : Except Failure Staging :=
  match w.project? name with
  | none => .error (.projectNotFound name)
  | some p => t.write p.configPath.location p.toText

end Workspace

end Retarget
