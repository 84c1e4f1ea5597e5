import Retarget.Proofs.Staging.Mirroring

/-!
# Programs that use a staging

A `Session` is a staging with the marks that a program has taken of it.  `Action` lists
everything that a program can do with a staging, and `Answer` what it gets to know.  A
program is a list of actions; a rollback names the mark to go back to by its number.

The actions here are about paths that are spelled with names only (`Location.Plain`), so
that two paths never lead to one place.
-/

namespace Retarget

/-- A location that is spelled with names only. -/
def Location.Plain (l : Location) : Prop :=
  ∃ names : List String, l = names.map .name

namespace Staging

/-- What a program can do with a staging. -/
inductive Action where
  | exists_ (p : Path)
  | read (p : Path)
  | write (p : Path) (s : String)
  | rename (a b : Path)
  | mark
  /-- to go back to the mark with a number -/
  | rollback (i : Nat)
  | flush
  | pending
  | changes
  deriving DecidableEq, Repr

/-- What a program gets to know from an action. -/
inductive Answer where
  | nothing
  | flag (b : Bool)
  | text (r : Except Failure String)
  | staged (r : Except Failure Unit)
  | marked (m : Mark)
  | flushed (r : Except Failure (List Location))
  | changed (cs : List Change)

/-- A staging and the marks that were taken of it, in order. -/
structure Session where
  staging : Staging
  marks : List Mark

/-- The paths that an action is about are spelled with names only. -/
def Action.Plain : Action → Prop
  | .exists_ p => p.location.Plain
  | .read p => p.location.Plain
  | .write p _ => p.location.Plain
  | .rename a b => a.location.Plain ∧ b.location.Plain
  | _ => True

/-- A staging with nothing staged, of a directory or in memory. -/
def fresh (base : Option Disk) : Staging :=
  ⟨base, [], [], [], 0⟩

namespace Session

/-- A session in which nothing has happened. -/
def start (base : Option Disk) : Session :=
  ⟨.fresh base, []⟩

/-- What an action leaves, and what it tells. -/
def act (s : Session) : Action → Session × Answer
  | .exists_ p => (s, .flag (s.staging.exists_ p.location))
  | .read p => (s, .text (s.staging.read p.location))
  | .write p x =>
    match s.staging.write p.location x with
    | .ok t => ({ s with staging := t }, .staged (.ok ()))
    | .error f => (s, .staged (.error f))
  | .rename a b =>
    let (t, r) := s.staging.rename a.location b.location
    ({ s with staging := t }, .staged r)
  | .mark => ({ s with marks := s.marks ++ [s.staging.mark] }, .marked s.staging.mark)
  | .rollback i =>
    match s.marks[i]? with
    | some m => ({ s with staging := s.staging.rollback m }, .nothing)
    | none => (s, .nothing)
  | .flush =>
    let (t, r) := s.staging.flush
    ({ s with staging := t }, .flushed r)
  | .pending => (s, .flag s.staging.pending)
  | .changes => (s, .changed s.staging.changes)

/-- The session after a program. -/
def after (s : Session) (program : List Action) : Session :=
  program.foldl (fun s a => (s.act a).1) s

/-- What a program gets to know, action by action. -/
def answers (s : Session) : List Action → List Answer
  | [] => []
  | a :: rest => (s.act a).2 :: answers (s.act a).1 rest

@[simp]
theorem after_nil (s : Session) : s.after [] = s :=
  rfl

@[simp]
theorem after_cons (s : Session) (a : Action) (rest : List Action) :
    s.after (a :: rest) = (s.act a).1.after rest :=
  rfl

end Session

end Staging

end Retarget
