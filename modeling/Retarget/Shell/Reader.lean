import Retarget.Shell.Lexeme

/-!
# Reading scripts

`Script.ofText` reads a script from its lexemes.  Words such as `if` and `done`
have their own meaning only where a command can start.
-/

namespace Retarget.Shell.Script

/-- Why a text is no script. -/
inductive Flaw where
  | unterminated
  /-- something at the wrong place, and what was expected there -/
  | unexpected (line : Nat) (what : Option String) (due : Option String)
  deriving DecidableEq, Repr

/-- The wording of a flaw, with the line it is found in. -/
def Flaw.message : Flaw → Nat × String
  | unterminated => (1, "Syntax error: Unterminated quoted string")
  | unexpected line what due =>
    let found := match what with
      | none => "end of file"
      | some "\n" => "newline"
      | some s => "\"" ++ s ++ "\""
    let rest := match due with
      | none => ""
      | some s => " (expecting \"" ++ s ++ "\")"
    (line, "Syntax error: " ++ found ++ " unexpected" ++ rest)

/-- What is left to read, with the line each piece stands in. -/
abbrev Rest := List (Nat × Lexeme)

/-- The words that have their own meaning where a command can start. -/
def reserved : List String :=
  ["if", "then", "elif", "else", "fi", "for", "in", "do", "done", "while", "until", "!",
    "\x7b", "\x7d"]

/-- The reserved word at the front. -/
def keyword? : Rest → Option String
  | (_, .word w) :: _ =>
    (Lexeme.bare? w).bind fun cs =>
      let s := String.ofList cs
      if reserved.contains s then some s else none
  | _ => none

/-- The words that end a list of commands. -/
def closes (s : String) : Bool :=
  ["then", "elif", "else", "fi", "do", "done", "\x7d"].contains s

/-- Says that the front is at the wrong place. -/
def wrong {α : Type} (rest : Rest) (due : Option String) : Except Flaw α :=
  .error <| match rest with
    | [] => .unexpected 1 none due
    | (line, .operator s) :: _ => .unexpected line (some s) due
    | (line, .redirect _ _) :: _ => .unexpected line (some "redirection") due
    | (line, .word w) :: _ =>
      .unexpected line (some (match Lexeme.bare? w with
        | some cs => String.ofList cs
        | none => "word")) due

/-- Passes a reserved word. -/
def expect (s : String) (rest : Rest) : Except Flaw Rest :=
  if keyword? rest = some s then .ok rest.tail else wrong rest (some s)

/-- Passes line ends. -/
def skipLines : Rest → Rest
  | (_, .operator "\n") :: rest => skipLines rest
  | rest => rest

/-- Passes line ends and at most one semicolon before them. -/
def skipSeparator : Rest → Rest
  | (_, .operator ";") :: rest => skipLines rest
  | rest => skipLines rest

/-- Splits a word at the equals sign behind a name. -/
def assignment? (w : Word) : Option (String × Word) :=
  match w with
  | .text false cs :: more =>
    let name := cs.takeWhile (· ≠ '=')
    match cs.drop name.length with
    | [] => none
    | _ :: value =>
      if Lexeme.isName name then
        some (String.ofList name, if value = [] then more else .text false value :: more)
      else none
  | _ => none

/-- Reads redirections at the front. -/
def readRedirections : Rest → List Redirection × Rest
  | (_, .redirect stream direction) :: (_, .word w) :: rest =>
    let (rs, rest) := readRedirections rest
    (⟨stream, direction, w⟩ :: rs, rest)
  | rest => ([], rest)

/-- Reads words and redirections up to the next operator. -/
def readWords : Rest → Except Flaw (List Word × List Redirection × Rest)
  | (_, .redirect stream direction) :: (_, .word w) :: rest => do
    let (ws, rs, rest) ← readWords rest
    .ok (ws, ⟨stream, direction, w⟩ :: rs, rest)
  | (_, .redirect _ _) :: rest => wrong rest none
  | (_, .word w) :: rest => do
    let (ws, rs, rest) ← readWords rest
    .ok (w :: ws, rs, rest)
  | rest => .ok ([], [], rest)

/-- Splits assignments from the words behind them. -/
def splitAssignments : List Word → List (String × Word) × List Word
  | [] => ([], [])
  | w :: ws =>
    match assignment? w with
    | some a => let (as, ws) := splitAssignments ws; (a :: as, ws)
    | none => ([], w :: ws)

/-- The line at the front. -/
def lineOf : Rest → Nat
  | (line, _) :: _ => line
  | [] => 1

/-- Reads assignments, words and redirections. -/
def readCall (rest : Rest) : Except Flaw (Script × Rest) := do
  let (ws, rs, after) ← readWords rest
  if ws = [] && rs = [] then wrong rest none
  else
    let (as, ws) := splitAssignments ws
    .ok (.call (lineOf rest) as ws rs, after)

/-- Adds the redirections behind a compound command. -/
def withRedirections (r : Script × Rest) : Script × Rest :=
  let (rs, rest) := readRedirections r.2
  (if rs = [] then r.1 else .redirected r.1 rs, rest)

mutual

/-- Reads a list of commands, up to a closing word, parenthesis or the end. -/
def readList : Nat → Rest → Except Flaw (Script × Rest)
  | 0, rest => wrong rest none
  | n + 1, rest => do
    let rest := skipLines rest
    let ended := match rest with
      | [] => true
      | (_, .operator ")") :: _ => true
      | _ => (keyword? rest).any closes
    if ended then .ok (.nothing, rest)
    else
      let (first, rest) ← readLinks n rest
      match rest with
      | (_, .operator ";") :: rest => let (r, rest) ← readList n rest; .ok (.chain first r, rest)
      | (_, .operator "&") :: rest => let (r, rest) ← readList n rest; .ok (.chain first r, rest)
      | (_, .operator "\n") :: rest => let (r, rest) ← readList n rest; .ok (.chain first r, rest)
      | [] => .ok (first, [])
      | (_, .operator ")") :: _ => .ok (first, rest)
      | _ => wrong rest none

/-- Reads pipelines linked by success or failure. -/
def readLinks : Nat → Rest → Except Flaw (Script × Rest)
  | 0, rest => wrong rest none
  | n + 1, rest => do
    let (first, rest) ← readPipeline n rest
    linkMore n first rest

/-- Links more pipelines to those already read. -/
def linkMore : Nat → Script → Rest → Except Flaw (Script × Rest)
  | 0, _, rest => wrong rest none
  | n + 1, first, rest => do
    match rest with
    | (_, .operator "&&") :: rest =>
      let (second, rest) ← readPipeline n (skipLines rest)
      linkMore n (.both first second) rest
    | (_, .operator "||") :: rest =>
      let (second, rest) ← readPipeline n (skipLines rest)
      linkMore n (.either first second) rest
    | _ => .ok (first, rest)

/-- Reads commands that are piped into each other. -/
def readPipeline : Nat → Rest → Except Flaw (Script × Rest)
  | 0, rest => wrong rest none
  | n + 1, rest => do
    if keyword? rest = some "!" then
      let (body, rest) ← readPipeline n rest.tail
      .ok (.negate body, rest)
    else
      let (first, rest) ← readCommand n rest
      match rest with
      | (_, .operator "|") :: rest =>
        let (second, rest) ← readPipeline n (skipLines rest)
        .ok (.pipe first second, rest)
      | _ => .ok (first, rest)

/-- Reads what follows the condition of a choice. -/
def readBranches : Nat → Script → Rest → Except Flaw (Script × Rest)
  | 0, _, rest => wrong rest none
  | n + 1, condition, rest => do
    let (yes, rest) ← readList n (← expect "then" rest)
    match keyword? rest with
    | some "elif" =>
      let (next, rest) ← readList n rest.tail
      let (no, rest) ← readBranches n next rest
      .ok (.choose condition yes no, rest)
    | some "else" =>
      let (no, rest) ← readList n rest.tail
      .ok (.choose condition yes no, ← expect "fi" rest)
    | _ => .ok (.choose condition yes .nothing, ← expect "fi" rest)

/-- Reads one command. -/
def readCommand : Nat → Rest → Except Flaw (Script × Rest)
  | 0, rest => wrong rest none
  | n + 1, rest => do
    match rest with
    | (_, .operator "(") :: rest =>
      let (body, rest) ← readList n rest
      match rest with
      | (_, .operator ")") :: rest => .ok (withRedirections (.apart body, rest))
      | _ => wrong rest (some ")")
    | _ =>
      match keyword? rest with
      | some "\x7b" =>
        let (body, rest) ← readList n rest.tail
        .ok (withRedirections (body, ← expect "\x7d" rest))
      | some "if" =>
        let (condition, rest) ← readList n rest.tail
        .ok (withRedirections (← readBranches n condition rest))
      | some "while" =>
        let (condition, rest) ← readList n rest.tail
        let (body, rest) ← readList n (← expect "do" rest)
        .ok (withRedirections (.loop false condition body, ← expect "done" rest))
      | some "until" =>
        let (condition, rest) ← readList n rest.tail
        let (body, rest) ← readList n (← expect "do" rest)
        .ok (withRedirections (.loop true condition body, ← expect "done" rest))
      | some "for" =>
        match rest.tail with
        | (line, .word w) :: rest =>
          match Lexeme.bare? w with
          | none => .error (.unexpected line (some "word") none)
          | some name =>
            let rest := skipLines rest
            if keyword? rest = some "in" then
              let (items, _, rest) ← readWords rest.tail
              let (body, rest) ← readList n (← expect "do" (skipSeparator rest))
              .ok (withRedirections
                (.each (String.ofList name) (some items) body, ← expect "done" rest))
            else
              let (body, rest) ← readList n (← expect "do" (skipSeparator rest))
              .ok (withRedirections
                (.each (String.ofList name) none body, ← expect "done" rest))
        | rest => wrong rest none
      | some "!" => wrong rest none
      | some "in" => readCall rest
      | some _ => wrong rest none
      | none => readCall rest

end

/-- Reads a script. -/
def ofText (source : List Char) : Except Flaw Script :=
  match Lexeme.ofText source with
  | .error .unterminated => .error .unterminated
  | .ok rest =>
    match readList (8 * (rest.length + 1)) rest with
    | .error f => .error f
    | .ok (s, []) => .ok s
    | .ok (_, rest) => wrong rest none

end Retarget.Shell.Script
