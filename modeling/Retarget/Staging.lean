import Retarget.Disk

/-!
# Staged changes

A `Staging` is a view of a directory in which writes and renames are staged: a
log of operations, an overlay that shows their effect, and the number of
operations that have reached the disk.  `flush` carries the log out in order,
and `rollback` forgets what was staged after a mark and is not on disk yet.

The overlay always is the log replayed, and `changes` compares it with what
each path held when it was first touched.
-/

namespace Retarget

/-- A staged operation. -/
inductive Staged where
  | write (path : Location) (text : String)
  | rename (source target : Location) (text : String)
  deriving DecidableEq, Repr

/-- What each touched path holds; `none` means that it is gone. -/
abbrev Overlay := OrderedMap Location (Option String)

namespace Staged

/-- The effect of an operation on what paths hold. -/
def apply (o : Overlay) : Staged → Overlay
  | write p s => o.insert p (some s)
  | rename a b s => (o.insert a none).insert b (some s)

/-- The effect of a log. -/
def replay (log : List Staged) : Overlay :=
  log.foldl apply []

/-- Carries an operation out on disk. -/
def perform (d : Disk) : Staged → Except Disk.Fault Disk
  | write p s => do (← d.makeFolders p.parent).writeText p s
  | rename a b s => do
    let e ← d.makeFolders b.parent
    if e.isFile a then e.move a b else e.writeText b s

/-- The folders an operation makes before it fails, or the disk it leaves. -/
def attempt (d : Disk) (op : Staged) : Disk × Except Disk.Fault Unit :=
  match op.perform d with
  | .ok e => (e, .ok ())
  | .error f =>
    let target := match op with
      | write p _ => p
      | rename _ b _ => b
    match d.makeFolders target.parent with
    | .ok e => (e, .error f)
    | .error _ => (d, .error f)

end Staged

/-- A view of a directory with staged changes; without a disk it lives in
memory. -/
structure Staging where
  disk : Option Disk
  overlay : Overlay
  firstSeen : Overlay
  log : List Staged
  flushed : Nat
  deriving DecidableEq, Repr

/-- A position in the log. -/
structure Mark where
  length : Nat
  deriving DecidableEq, Repr

/-- A file whose staged content differs from what it held at first. -/
structure Change where
  path : Location
  before : Option String
  after : Option String
  deriving DecidableEq, Repr

namespace Staging

/-- A view of a directory with nothing staged. -/
def «open» (d : Disk) : Staging :=
  ⟨some d, [], [], [], 0⟩

/-- A view without a directory. -/
def inMemory : Staging :=
  ⟨none, [], [], [], 0⟩

/-- The text of a path on disk, if a file is there. -/
def readDisk (t : Staging) (p : Location) : Except Failure (Option String) :=
  match t.disk with
  | none => .ok none
  | some d =>
    if d.isFile p then
      match d.readText p with
      | .ok s => .ok (some s)
      | .error f => .error f.failure
    else .ok none

/-- Whether a file is at a path. -/
def exists_ (t : Staging) (p : Location) : Bool :=
  match t.overlay.get? p with
  | some state => state.isSome
  | none => (t.disk.map fun d => d.isFile p).getD false

/-- The text at a path. -/
def read (t : Staging) (p : Location) : Except Failure String :=
  match t.overlay.get? p with
  | some (some s) => .ok s
  | some none => .error (.fileNotFound p.path)
  | none =>
    match t.readDisk p with
    | .error f => .error f
    | .ok (some s) => .ok s
    | .ok none => .error (.fileNotFound p.path)

/-- Notes what a path holds before it is first touched. -/
def remember (t : Staging) (p : Location) : Except Failure Staging :=
  if t.firstSeen.has p then .ok t
  else
    match t.overlay.get? p with
    | some state => .ok { t with firstSeen := t.firstSeen.insert p state }
    | none =>
      match t.readDisk p with
      | .error f => .error f
      | .ok state => .ok { t with firstSeen := t.firstSeen.insert p state }

/-- Stages an operation whose paths are remembered. -/
def stage (t : Staging) (op : Staged) : Staging :=
  { t with overlay := op.apply t.overlay, log := t.log ++ [op] }

/-- Stages a write. -/
def write (t : Staging) (p : Location) (s : String) : Except Failure Staging :=
  match t.remember p with
  | .error f => .error f
  | .ok u => .ok (u.stage (.write p s))

/-- Remembers the two paths of a rename and stages it, without a look at what
stands there. -/
def relink (t : Staging) (a b : Location) (s : String) : Staging × Except Failure Unit :=
  match t.remember a with
  | .error f => (t, .error f)
  | .ok u =>
    match u.remember b with
    | .error f => (u, .error f)
    | .ok v => (v.stage (.rename a b s), .ok ())

/-- Stages a rename.  The new path must be free and the old one there; a path
that was remembered on the way stays remembered. -/
def rename (t : Staging) (a b : Location) : Staging × Except Failure Unit :=
  if t.exists_ b then (t, .error (.archiveExists b.path))
  else
    match t.read a with
    | .error f => (t, .error f)
    | .ok s => t.relink a b s

/-- The current position in the log. -/
def mark (t : Staging) : Mark :=
  ⟨t.log.length⟩

/-- Forgets what was staged after a mark; what is on disk stays. -/
def rollback (t : Staging) (m : Mark) : Staging :=
  let keep := max m.length t.flushed
  if t.log.length ≤ keep then t
  else { t with log := t.log.take keep, overlay := Staged.replay (t.log.take keep) }

/-- Whether operations wait to be flushed. -/
def pending (t : Staging) : Bool :=
  t.flushed < t.log.length

/-- The path that an operation writes anew. -/
def writtenBy : Staged → List Location
  | .write p _ => [p]
  | .rename _ _ _ => []

/-- Carries out operations in order, up to the first that fails; gives the
paths written. -/
def flushAll (t : Staging) : List Staged → Staging × Except Failure (List Location)
  | [] => (t, .ok [])
  | op :: ops =>
    match t.disk with
    | none =>
      let (u, r) := flushAll { t with flushed := t.flushed + 1 } ops
      (u, r.map (writtenBy op ++ ·))
    | some d =>
      match op.attempt d with
      | (e, .error f) => ({ t with disk := some e }, .error f.failure)
      | (e, .ok ()) =>
        let (u, r) := flushAll { t with disk := some e, flushed := t.flushed + 1 } ops
        (u, r.map (writtenBy op ++ ·))

/-- Carries out what is pending. -/
def flush (t : Staging) : Staging × Except Failure (List Location) :=
  t.flushAll (t.log.drop t.flushed)

/-- The paths whose content differs from what they held at first. -/
def changes (t : Staging) : List Change :=
  t.overlay.filterMap fun (p, state) =>
    let before := (t.firstSeen.get? p).join
    if before = state then none else some ⟨p, before, state⟩

end Staging

end Retarget
