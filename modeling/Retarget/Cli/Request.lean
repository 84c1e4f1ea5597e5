import Retarget.Path

/-!
# Requests on the command line

A `Request` is what somebody asks for with the words of a command line, and
`Request.ofWords` reads it.  A `Form` lists the options and operands that a
command takes; words are read from left to right, and the first one that does
not fit, or that asks for help, decides.
-/

namespace Retarget.Cli

/-- What there is help about. -/
inductive Topic where
  | program
  | migrate
  | extract
  | profiles
  | help
  deriving DecidableEq, Repr

/-- How a workspace is to be migrated. -/
structure MigrateOptions where
  path : Path
  profile : String
  project : Option String
  skipFormat : Bool
  dryRun : Bool
  allowDirty : Bool
  formatter : Option String
  deriving DecidableEq, Repr

/-- What is to be extracted from a file. -/
structure ExtractOptions where
  file : Path
  callees : List String
  strict : Bool
  deriving DecidableEq, Repr

/-- What somebody asks for. -/
inductive Request where
  | migrate (o : MigrateOptions)
  | extract (o : ExtractOptions)
  | profiles
  | help (t : Topic)
  | version
  deriving DecidableEq, Repr

/-- Why the reading of words ends early. -/
inductive Stop where
  | misuse
  | help
  | version
  deriving DecidableEq, Repr

/-- An option: its names, whether it takes a value and which ones, and whether
it may be given again. -/
structure Switch where
  long : String
  short : Option Char
  valued : Bool
  repeatable : Bool
  admits : String → Bool

/-- An option without a value. -/
def Switch.flag (long : String) : Switch :=
  ⟨long, none, false, false, fun _ => false⟩

/-- An option with any value. -/
def Switch.value (long : String) (short : Option Char) : Switch :=
  ⟨long, short, true, false, fun _ => true⟩

/-- The options and operands that a command takes. -/
structure Form where
  switches : List Switch
  operands : Nat
  versioned : Bool

/-- The options and operands read so far. -/
structure Reading where
  options : List (String × String)
  operands : List String

namespace Reading

/-- A reading before its first word. -/
def empty : Reading :=
  ⟨[], []⟩

/-- Whether an option was given. -/
def has (r : Reading) (long : String) : Bool :=
  r.options.any (·.1 = long)

/-- The value of an option. -/
def get? (r : Reading) (long : String) : Option String :=
  (r.options.find? (·.1 = long)).map Prod.snd

/-- All values of an option, in order. -/
def all (r : Reading) (long : String) : List String :=
  (r.options.filter (·.1 = long)).map Prod.snd

/-- Adds an option. -/
def give (r : Reading) (s : Switch) (value : String) : Except Stop Reading :=
  if r.has s.long && !s.repeatable then .error .misuse
  else if s.valued && !s.admits value then .error .misuse
  else .ok { r with options := r.options ++ [(s.long, value)] }

/-- Adds an operand; an empty one is none. -/
def take (r : Reading) (f : Form) (word : String) : Except Stop Reading :=
  if word = "" || f.operands ≤ r.operands.length then .error .misuse
  else .ok { r with operands := r.operands ++ [word] }

end Reading

namespace Form

/-- A word taken apart: an option with the value that is written in the same
word, or something else. -/
inductive Parsed where
  | option (s : Switch) (value : Option String)
  | operand
  | rest
  | stop (s : Stop)

/-- Takes a word apart that opens with two dashes. -/
def parseLong (f : Form) (body : List Char) : Parsed :=
  let name := String.ofList (body.takeWhile (· ≠ '='))
  let value := match body.dropWhile (· ≠ '=') with
    | [] => none
    | _ :: v => some (String.ofList v)
  match f.switches.find? (·.long = name) with
  | some s => if !s.valued && value.isSome then .stop .misuse else .option s value
  | none =>
    if value.isSome then .stop .misuse
    else if name = "help" then .stop .help
    else if name = "version" && f.versioned then .stop .version
    else .stop .misuse

/-- Takes a word apart that opens with one dash. -/
def parseShort (f : Form) (c : Char) (body : List Char) : Parsed :=
  match f.switches.find? (·.short = some c) with
  | some s =>
    match body with
    | [] => .option s none
    | '=' :: v => .option s (some (String.ofList v))
    | v => .option s (some (String.ofList v))
  | none =>
    if c = 'h' then .stop .help
    else if c = 'V' && f.versioned then .stop .version
    else .stop .misuse

/-- Takes a word apart. -/
def parse (f : Form) (word : String) : Parsed :=
  match word.toList with
  | ['-', '-'] => .rest
  | '-' :: '-' :: body => parseLong f body
  | '-' :: c :: body => parseShort f c body
  | _ => .operand

/-- Whether a word can be the value of the option before it. -/
def isValue (word : String) : Bool :=
  match word.toList with
  | ['-'] => true
  | '-' :: _ => false
  | _ => true

/-- Reads words.  A form without operands leaves the first operand and what
follows it unread. -/
def read (f : Form) (r : Reading) : List String → Except Stop (Reading × List String)
  | [] => .ok (r, [])
  | word :: words =>
    match f.parse word with
    | .stop s => .error s
    | .rest =>
      if f.operands = 0 then .error .misuse
      else (words.foldlM (fun (r : Reading) w => r.take f w) r).map fun r => (r, [])
    | .operand =>
      if f.operands = 0 then .ok (r, word :: words)
      else match r.take f word with
        | .ok r => read f r words
        | .error s => .error s
    | .option s (some v) =>
      match r.give s v with
      | .ok r => read f r words
      | .error s => .error s
    | .option s none =>
      if s.valued then
        match words with
        | [] => .error .misuse
        | v :: words =>
          if isValue v then
            match r.give s v with
            | .ok r => read f r words
            | .error s => .error s
          else .error .misuse
      else
        match r.give s "" with
        | .ok r => read f r words
        | .error s => .error s

end Form

namespace Request

/-- The levels of the log. -/
def logLevels : List String :=
  ["trace", "debug", "info", "warn", "error"]

/-- The option that every command takes. -/
def logLevel : Switch :=
  ⟨"log-level", none, true, false, logLevels.contains⟩

/-- What comes before the name of a command. -/
def programForm : Form :=
  ⟨[logLevel], 0, true⟩

/-- The form of a migration. -/
def migrateForm : Form where
  switches := [.value "profile" (some 'p'), .value "project" none, .flag "skip-format",
    .flag "dry-run", .flag "allow-dirty", .value "formatter" none, logLevel]
  operands := 1
  versioned := false

/-- The form of an extraction. -/
def extractForm : Form where
  switches := [⟨"callee", some 'c', true, true, fun _ => true⟩, .flag "strict", logLevel]
  operands := 1
  versioned := false

/-- The form of a listing of profiles. -/
def profilesForm : Form :=
  ⟨[logLevel], 0, false⟩

/-- The profile that is used unless another one is named. -/
def defaultProfile : String := "webpack"

/-- A request from a reading, or the help that was asked for. -/
def finish (t : Topic) (build : Reading → Option Request) :
    Except Stop (Reading × List String) → Option Request
  | .ok (r, []) => build r
  | .ok (_, _ :: _) => none
  | .error .misuse => none
  | .error .help => some (.help t)
  | .error .version => some .version

/-- The migration that was asked for. -/
def migrateOf (r : Reading) : Option Request :=
  some (.migrate
    { path := ⟨r.operands.head?.getD "."⟩
      profile := (r.get? "profile").getD defaultProfile
      project := r.get? "project"
      skipFormat := r.has "skip-format"
      dryRun := r.has "dry-run"
      allowDirty := r.has "allow-dirty"
      formatter := r.get? "formatter" })

/-- The extraction that was asked for; it needs a file and a callee. -/
def extractOf (r : Reading) : Option Request :=
  match r.operands, r.all "callee" with
  | file :: _, c :: cs => some (.extract ⟨⟨file⟩, c :: cs, r.has "strict"⟩)
  | _, _ => none

/-- The topic that words of a request for help name. -/
def topic? : List String → Option Topic
  | [] => some .program
  | ["migrate"] => some .migrate
  | ["extract"] => some .extract
  | ["profiles"] => some .profiles
  | ["help"] => some .help
  | _ => none

/-- The request that the words of a command line spell, if they fit. -/
def ofWords (words : List String) : Option Request :=
  match programForm.read .empty words with
  | .error .misuse => none
  | .error .help => some (.help .program)
  | .error .version => some .version
  | .ok (_, []) => none
  | .ok (_, command :: words) =>
    match command with
    | "migrate" => finish .migrate migrateOf (migrateForm.read .empty words)
    | "extract" => finish .extract extractOf (extractForm.read .empty words)
    | "profiles" => finish .profiles (fun _ => some .profiles) (profilesForm.read .empty words)
    | "help" => (topic? words).map .help
    | _ => none

end Request

end Retarget.Cli
