import Retarget.Glob.Reader
import Retarget.Shell.Reader
import Retarget.Shell.Tool

/-!
# Running scripts

A `Session` is where a run of a script stands: the directory, the variables,
the streams and what came out so far.  `Session.run` runs a script in it.  A
run is given a number of steps, and one that takes more never ends.

`programs` lists all programs there are, the shell itself among them.
-/

namespace Retarget.Shell

/-- Where written bytes go. -/
inductive Sink where
  | stream (n : Nat)
  | file (l : Location)
  | nowhere
  deriving DecidableEq, Repr

/-- How a run goes on. -/
inductive Flow where
  | onward
  | left
  | killed
  | endless
  deriving DecidableEq, Repr

/-- Where a run of a script stands. -/
structure Session where
  disk : Disk
  name : String
  arguments : List String
  bindings : OrderedMap String String
  status : Nat
  input : List UInt8
  written : OrderedMap Nat (List UInt8)
  output : Sink
  errors : Sink
  millis : Nat
  flow : Flow

namespace Session

/-- The number under which a shell knows itself. -/
def ownNumber : String := "4000"

/-- The steps a run may take. -/
def steps : Nat := 5000

/-- A session before its first step. -/
def start (name : String) (arguments : List String) (input : List UInt8) (d : Disk) : Session where
  disk := d
  name := name
  arguments := arguments
  bindings := [("PWD", Tool.directoryName)]
  status := 0
  input := input
  written := []
  output := .stream 1
  errors := .stream 2
  millis := 0
  flow := .onward

/-- What was written to a stream. -/
def streamed (s : Session) (n : Nat) : List UInt8 :=
  (s.written.get? n).getD []

/-- The effect of a session that is over. -/
def effect (s : Session) : Effect where
  disk := s.disk
  output := s.streamed 1
  errors := s.streamed 2
  ending := if s.flow = .killed then .killed else .exited s.status
  millis := if s.flow = .endless then none else some s.millis

/-- Writes bytes to where they go. -/
def put (s : Session) (sink : Sink) (bs : List UInt8) : Session :=
  if bs = [] then s
  else match sink with
    | .nowhere => s
    | .stream n => { s with written := OrderedMap.insert s.written n (s.streamed n ++ bs) }
    | .file l =>
      let before := match s.disk.content l with
        | .ok c => c.bytes
        | .error _ => []
      match s.disk.writeContent l (.ofBytes (before ++ bs)) with
      | .ok d => { s with disk := d }
      | .error _ => s

/-- Writes bytes to the output. -/
def say (s : Session) (bs : List UInt8) : Session :=
  s.put s.output bs

/-- Says what went wrong in a line, and with which status. -/
def complain (s : Session) (line status : Nat) (reason : String) : Session :=
  { s.put s.errors (Text.encode (s.name ++ ": " ++ toString line ++ ": " ++ reason ++ "\n")) with
    status := status }

/-- The value of a parameter. -/
def value (s : Session) (name : String) : String :=
  match name with
  | "0" => s.name
  | "#" => toString s.arguments.length
  | "?" => toString s.status
  | "$" => ownNumber
  | "@" | "*" => " ".intercalate s.arguments
  | _ =>
    match name.toNat? with
    | some n => (s.arguments[n - 1]?).getD ""
    | none => (s.bindings.get? name).getD ""

/-- The fields that a word has given so far, with the one that is open. -/
structure Fields where
  done : List String
  current : Option String

namespace Fields

/-- Extends the open field. -/
def add (f : Fields) (x : String) : Fields :=
  { f with current := some (f.current.getD "" ++ x) }

/-- Closes the open field. -/
def close (f : Fields) : Fields :=
  ⟨f.done ++ f.current.toList, none⟩

/-- Adds a text that is split at blanks. -/
def split (f : Fields) (x : String) : Fields :=
  let cs := x.toList
  let blank (c : Char) : Bool := c = ' ' || c = '\t' || c = '\n'
  let pieces := (Text.splitAtAll blank cs).filter (· ≠ [])
  let f := if cs.head?.any blank then f.close else f
  let f := (pieces.foldl (fun (f, first) p =>
    ((if first then f else f.close).add (String.ofList p), false)) (f, true)).1
  if cs.getLast?.any blank then f.close else f

/-- Adds texts of which each starts a field but the first. -/
def spread (f : Fields) (put : Fields → String → Fields) (xs : List String) : Fields :=
  (xs.foldl (fun (f, first) x => (put (if first then f else f.close) x, false)) (f, true)).1

end Fields

/-- Adds a value to the fields of a word. -/
def addValue (s : Session) (f : Fields) (quoted : Bool) (name : String) : Fields :=
  if name = "@" then f.spread (if quoted then Fields.add else Fields.split) s.arguments
  else if name = "*" && !quoted then f.spread Fields.split s.arguments
  else if quoted then f.add (s.value name)
  else f.split (s.value name)

/-- The names in the directory that a bare word stands for. -/
def namesLike (s : Session) (w : Word) : Option (List String) :=
  match Lexeme.bare? w with
  | none => none
  | some cs =>
    if !cs.any (fun c => c = '*' || c = '?' || c = '[') || cs.contains '/' then none
    else match Glob.ofText (String.ofList cs) with
      | .error _ => none
      | .ok g =>
        let names := ((s.disk.children []).map Prod.fst).filter fun n =>
          g.matchesText n && (n.toList.head? ≠ some '.' || cs.head? = some '.')
        if names = [] then none else some names

/-- The wording of a fault at a file that a redirection names. -/
def redirectionFault (direction : Direction) (target : String) (f : Disk.Fault) : String :=
  let (verb, missing) := match direction with
    | .read => ("open", "No such file")
    | _ => ("create", "Directory nonexistent")
  "cannot " ++ verb ++ " " ++ target ++ ": " ++
    (if f = .notThere then missing else Tool.faultText f)

/-- Points a stream somewhere. -/
def direct (s : Session) (stream : Nat) (sink : Sink) : Session :=
  if stream = 1 then { s with output := sink }
  else if stream = 2 then { s with errors := sink }
  else s

/-- Redirects a stream to a target.  Says why if that fails. -/
def redirect (s : Session) (stream : Nat) (direction : Direction) (target : String) :
    Except String Session :=
  let l := Path.location ⟨target⟩
  let fault (f : Disk.Fault) : Except String Session :=
    .error (redirectionFault direction target f)
  match direction with
  | .duplicate =>
    match target with
    | "1" => .ok (s.direct stream s.output)
    | "2" => .ok (s.direct stream s.errors)
    | _ => .ok s
  | .read =>
    if target = "/dev/null" then .ok { s with input := [] }
    else match s.disk.content l with
      | .ok c => .ok { s with input := c.bytes }
      | .error f => fault f
  | .write =>
    if target = "/dev/null" then .ok (s.direct stream .nowhere)
    else match s.disk.writeContent l (.text "") with
      | .ok d => .ok ({ s with disk := d }.direct stream (.file l))
      | .error f => fault f
  | .append =>
    if target = "/dev/null" then .ok (s.direct stream .nowhere)
    else
      let opened := if s.disk.isFile l then .ok s.disk else s.disk.writeContent l (.text "")
      match opened with
      | .ok d => .ok ({ s with disk := d }.direct stream (.file l))
      | .error f => fault f

/-- The wording of a flaw in a condition. -/
def conditionFlaw : Condition.Flaw → String
  | .missingArgument _ => "argument expected"
  | .unaryExpected w | .binaryExpected w | .extraArgument w => w ++ ": unexpected operator"
  | .invalidInteger w => "Illegal number: " ++ w

/-- Decides a condition. -/
def judge (s : Session) (line : Nat) (name : String) (words : List String) : Session :=
  match Condition.evaluate s.disk words with
  | .ok true => { s with status := 0 }
  | .ok false => { s with status := 1 }
  | .error f => s.complain line 2 (name ++ ": " ++ conditionFlaw f)

/-- Ends the session with a status. -/
def leave (s : Session) (line : Nat) (args : List String) : Session :=
  match args with
  | [] => { s with flow := .left }
  | w :: _ =>
    match w.toNat? with
    | some n => { s with status := n % 256, flow := .left }
    | none => { s.complain line 2 ("exit: Illegal number: " ++ w) with flow := .left }

/-- Sends a signal. -/
def kill (s : Session) (line : Nat) (args : List String) : Session :=
  let targets := args.filter fun w => w.toList.head? ≠ some '-'
  if args.head? = some "-0" then { s with status := 0 }
  else if targets.contains ownNumber then { s with flow := .killed }
  else s.complain line 1 "kill: No such process"

/-- Reads a line of the input into a variable. -/
def readLine (s : Session) (name : String) : Session :=
  let line := s.input.takeWhile (· ≠ 10)
  let rest := s.input.drop line.length
  { s with
    bindings := OrderedMap.insert s.bindings name (Text.trim (Text.decodeLossy line))
    input := rest.drop 1
    status := if rest = [] then 1 else 0 }

/-- Runs a command that belongs to the shell; none if the name is not one. -/
def builtin? (s : Session) (line : Nat) (name : String) (args : List String) : Option Session :=
  match name with
  | ":" | "true" | "set" => some { s with status := 0 }
  | "false" => some { s with status := 1 }
  | "exit" => some (s.leave line args)
  | "kill" => some (s.kill line args)
  | "echo" =>
    let (bare, words) := match args with
      | "-n" :: rest => (true, rest)
      | _ => (false, args)
    let (bs, all) := Escape.expand ⟨true, false⟩ (" ".intercalate words).toList
    some { s.say (bs ++ if bare || !all then [] else [10]) with status := 0 }
  | "printf" =>
    match args with
    | [] => some (s.complain line 2 "printf: usage: printf format [arg ...]")
    | format :: rest =>
      let (bs, bad) := Printing.run ⟨false, false⟩ format rest
      let s := { s.say bs with status := 0 }
      some (bad.foldl (fun s w => s.complain line 1 ("printf: " ++ w ++
        ": expected numeric value")) s)
  | "test" => some (s.judge line name args)
  | "[" =>
    if args.getLast? = some "]" then some (s.judge line name args.dropLast)
    else some (s.complain line 2 "[: missing ]")
  | "shift" =>
    let n := (args.head?.bind String.toNat?).getD 1
    if n ≤ s.arguments.length then
      some { s with arguments := s.arguments.drop n, status := 0 }
    else some { s.complain line 2 "shift: can't shift that many" with flow := .left }
  | "read" => some (s.readLine (args.getLast?.getD "REPLY"))
  | _ => none

/-- Takes over what a program did. -/
def absorb (s : Session) (e : Effect) : Session :=
  let s := { s with disk := e.disk }
  let s := (s.put s.output e.output).put s.errors e.errors
  let s := match e.ending with
    | .exited n => { s with status := n }
    | .killed => { s.put s.errors (Text.encode "Killed\n") with status := 137 }
  match e.millis with
  | some n => { s with millis := s.millis + n }
  | none => { s with flow := .endless }

/-- Comes back from a part with its own variables and streams. -/
def comeBack (outer inner : Session) : Session :=
  { inner with
    arguments := outer.arguments
    bindings := outer.bindings
    input := outer.input
    output := outer.output
    errors := outer.errors
    flow := if inner.flow = .left then .onward else inner.flow }

/-- Comes back from a part with redirected streams. -/
def restoreStreams (outer inner : Session) (redirections : List Redirection) : Session :=
  { inner with
    input := if redirections.any (·.stream = 0) then outer.input else inner.input
    output := outer.output
    errors := outer.errors }

/-- A stream that nothing was written to. -/
def freshStream (s : Session) : Nat :=
  s.written.length + 3

mutual

/-- Runs a script in a session. -/
def run : Nat → Script → Session → Session
  | 0, _, s => { s with flow := .endless }
  | n + 1, script, s =>
    if s.flow ≠ .onward then s
    else match script with
      | .nothing => s
      | .call line assignments words redirections =>
        let (s, args) := fieldsOf n s words
        match redirectAll n s redirections with
        | .error reason => s.complain line 2 reason
        | .ok inner =>
          let inner := assignments.foldl (fun inner (name, w) =>
            let (inner, x) := textOf n inner w
            { inner with bindings := OrderedMap.insert inner.bindings name x }) inner
          let inner := match args with
            | [] => { inner with status := if assignments = [] then 0 else inner.status }
            | name :: args => callOn n inner line name args
          s.restoreStreams inner redirections
      | .chain a b => run n b (run n a s)
      | .both a b =>
        let s := run n a s
        if s.status = 0 then run n b s else s
      | .either a b =>
        let s := run n a s
        if s.status = 0 then s else run n b s
      | .negate body =>
        let s := run n body s
        if s.flow = .onward then { s with status := if s.status = 0 then 1 else 0 } else s
      | .pipe a b =>
        let k := s.freshStream
        let first := s.comeBack (run n a
          { s with output := .stream k, written := OrderedMap.insert s.written k [] })
        let second := s.comeBack (run n b
          { first with input := first.streamed k, millis := s.millis })
        { second with millis := max first.millis second.millis }
      | .choose condition yes no =>
        let s := run n condition s
        if s.status = 0 then run n yes s
        else run n no { s with status := 0 }
      | .loop untilTrue condition body =>
        let t := run n condition s
        if t.flow ≠ .onward then t
        else if (t.status = 0) = untilTrue then { t with status := 0 }
        else run n script (run n body t)
      | .each name items body =>
        let (s, xs) := match items with
          | some ws => fieldsOf n s ws
          | none => (s, s.arguments)
        xs.foldl (fun s x =>
          run n body { s with bindings := OrderedMap.insert s.bindings name x })
          { s with status := 0 }
      | .apart body => s.comeBack (run n body s)
      | .redirected body redirections =>
        match redirectAll n s redirections with
        | .error reason => s.complain 1 2 reason
        | .ok inner => s.restoreStreams (run n body inner) redirections

/-- Runs a command by its name. -/
def callOn : Nat → Session → Nat → String → List String → Session
  | 0, s, _, _, _ => { s with flow := .endless }
  | n + 1, s, line, name, args =>
    match s.builtin? line name args with
    | some s => s
    | none =>
      match name, args with
      | "exec", program :: args =>
        let s := callOn n s line program args
        if s.flow = .onward then { s with flow := .left } else s
      | "exec", [] => { s with status := 0 }
      | _, _ =>
        let known : Programs := fun x => if x = "sh" then some (shell n) else Tool.programs x
        match Command.findProgram known s.disk name with
        | .ok p => s.absorb (p args s.input s.disk)
        | .error .denied => s.complain line 126 (name ++ ": Permission denied")
        | .error _ => s.complain line 127 (name ++ ": not found")

/-- Redirects streams one after the other. -/
def redirectAll : Nat → Session → List Redirection → Except String Session
  | 0, _, _ => .error "out of steps"
  | n + 1, s, rs => rs.foldlM (fun s r =>
      let (s, target) := textOf n s r.target
      s.redirect r.stream r.direction target) s

/-- The fields that words give. -/
def fieldsOf : Nat → Session → List Word → Session × List String
  | 0, s, _ => ({ s with flow := .endless }, [])
  | n + 1, s, ws => ws.foldl (fun (s, xs) w =>
      match s.namesLike w with
      | some names => (s, xs ++ names)
      | none =>
        let (s, f) := expand n s w
        (s, xs ++ f.close.done)) (s, [])

/-- The text that a word gives where it is not split. -/
def textOf : Nat → Session → Word → Session × String
  | 0, s, _ => ({ s with flow := .endless }, "")
  | n + 1, s, w =>
    let whole := w.map fun p => match p with
      | .text _ cs => .text true cs
      | .value _ name => .value true name
      | .result _ source => .result true source
    let (s, f) := expand n s whole
    (s, " ".intercalate f.close.done)

/-- The fields of one word. -/
def expand : Nat → Session → Word → Session × Fields
  | 0, s, _ => ({ s with flow := .endless }, ⟨[], none⟩)
  | n + 1, s, w => w.foldl (fun (s, f) p =>
      match p with
      | .text _ cs => (s, f.add (String.ofList cs))
      | .value quoted name => (s, s.addValue f quoted name)
      | .result quoted source =>
        let k := s.freshStream
        let inner := runText n source
          { s with output := .stream k, written := OrderedMap.insert s.written k [] }
        let t := s.comeBack inner
        let bytes := ((t.streamed k).reverse.dropWhile (· = 10)).reverse
        let x := Text.decodeLossy bytes
        (t, if quoted then f.add x else f.split x)) (s, ⟨[], none⟩)

/-- Runs a text. -/
def runText : Nat → List Char → Session → Session
  | 0, _, s => { s with flow := .endless }
  | n + 1, source, s =>
    match Script.ofText source with
    | .ok script => run n script s
    | .error f =>
      let (line, reason) := f.message
      { s.complain line 2 reason with flow := .left }

/-- The shell as a program. -/
def shell : Nat → Program
  | 0, _, _, d => ⟨d, [], [], .exited 2, none⟩
  | n + 1, args, input, d =>
    match args with
    | [] =>
      (runText n (Text.decodeLossy input).toList (start "sh" [] [] d)).effect
    | ["-c"] => ((start "sh" [] input d).complain 0 2 "-c requires an argument").effect
    | "-c" :: source :: rest =>
      (runText n source.toList (start (rest.headD "sh") rest.tail input d)).effect
    | file :: rest =>
      match file.toList with
      | '-' :: c :: _ =>
        ((start "sh" [] input d).complain 0 2 ("Illegal option -" ++ String.singleton c)).effect
      | _ =>
        match d.content (Path.location ⟨file⟩) with
        | .ok c =>
          (runText n (Text.decodeLossy c.bytes).toList (start file rest input d)).effect
        | .error _ =>
          ((start "sh" [] input d).complain 0 2 ("cannot open " ++ file ++ ": No such file")).effect

end

end Session

/-- The programs there are. -/
def programs : Programs := fun name =>
  if name = "sh" then some (Session.shell Session.steps) else Tool.programs name

end Retarget.Shell
