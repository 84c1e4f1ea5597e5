import Retarget.Disk
import Retarget.Text.Blank

/-!
# Commands

A `Command` names a program with its arguments.  What a program does is a
function from a directory to an `Effect`; which programs there are is a
parameter, so a run of a command is a function too.

A program that fails is no failure of the run: the run fails only if the
program cannot be started or does not end in time.
-/

namespace Retarget

/-- How a program ended. -/
inductive Ending where
  | exited (code : Nat)
  | killed
  deriving DecidableEq, Repr

/-- What a program did: the directory it left, what it wrote, how it ended, and
the milliseconds it took, if it ended at all. -/
structure Effect where
  disk : Disk
  output : List UInt8
  errors : List UInt8
  ending : Ending
  millis : Option Nat

/-- A program, given its arguments, its input and the directory it runs in. -/
abbrev Program := List String → List UInt8 → Disk → Effect

/-- The programs there are, by name. -/
abbrev Programs := String → Option Program

/-- A program with its arguments and the milliseconds it may take. -/
structure Command where
  program : String
  args : List String
  limit : Nat
  deriving DecidableEq, Repr

namespace Command

/-- The milliseconds a command may take unless something else is said. -/
def defaultLimit : Nat := 300000

/-- The command that a line of words spells; a blank line spells none. -/
def ofLine? (line : String) : Option Command :=
  match Text.words line with
  | [] => none
  | program :: args => some ⟨program, args, defaultLimit⟩

/-- The words of a command in one line. -/
def text (c : Command) : String :=
  " ".intercalate (c.program :: c.args)

/-- The command with more arguments. -/
def withArgs (c : Command) (args : List String) : Command :=
  { c with args := c.args ++ args }

/-- What a finished command leaves to read. -/
structure Output where
  success : Bool
  code : Option Nat
  stdout : String
  stderr : String
  deriving DecidableEq, Repr

/-- The output of an effect; bytes that spell no text are replaced. -/
def Output.ofEffect (e : Effect) : Output where
  success := e.ending = .exited 0
  code := match e.ending with
    | .exited n => some n
    | .killed => none
  stdout := Text.decodeLossy e.output
  stderr := Text.decodeLossy e.errors

/-- A span of time in its largest unit that fits. -/
def showMillis (n : Nat) : String :=
  if n = 0 then "0ns"
  else if n < 1000 then toString n ++ "ms"
  else
    let fraction := (toString (1000 + n % 1000)).toList.drop 1
    let digits := (fraction.reverse.dropWhile (· = '0')).reverse
    toString (n / 1000) ++ (if digits = [] then "" else "." ++ String.ofList digits) ++ "s"

/-- The folders whose programs go by their bare names. -/
def programFolders : List String :=
  ["/bin/", "/usr/bin/"]

/-- Finds a program.  A name with a slash is a path, and no file below the
directory is a program. -/
def findProgram (programs : Programs) (d : Disk) (name : String) : Except Disk.Fault Program :=
  if !name.toList.contains '/' then found name
  else
    match programFolders.find? fun folder => folder.toList.isPrefixOf name.toList with
    | some folder => found (String.ofList (name.toList.drop folder.length))
    | none =>
      match d.find (Path.location ⟨name⟩) with
      | .error f => .error f
      | .ok names =>
        match d.entry? names with
        | none => .error .notThere
        | some _ => .error .denied
where
  /-- The program of a bare name. -/
  found (bare : String) : Except Disk.Fault Program :=
    match programs bare with
    | some p => .ok p
    | none => .error .notThere

/-- Whether an effect came about in time. -/
def inTime (c : Command) (e : Effect) : Bool :=
  match e.millis with
  | some n => n ≤ c.limit
  | none => false

/-- Whether a word can be handed to a program. -/
def isSendable (word : String) : Bool :=
  !word.toList.contains '\x00'

/-- Runs a command in a directory. -/
def run (programs : Programs) (c : Command) (d : Disk) : Disk × Except Failure Output :=
  let fail (reason : String) : Except Failure Output := .error (.process c.text reason)
  if !(c.program :: c.args).all isSendable then (d, fail "nul byte found in provided data")
  else match findProgram programs d c.program with
    | .error f => (d, fail f.message)
    | .ok program =>
      let e := program c.args [] d
      if c.inTime e then (e.disk, .ok (.ofEffect e))
      else (e.disk, fail ("timed out after " ++ showMillis c.limit))

/-- A blank line spells no command, and any other line spells one. -/
theorem ofLine?_isSome (line : String) : (ofLine? line).isSome ↔ Text.words line ≠ [] := by
  unfold ofLine?
  cases Text.words line <;> simp

end Command

end Retarget
