import Retarget.Shell.Script

/-!
# Words and operators of a script

`Lexeme.ofText` cuts a script into words, operators and redirections, each with
its line.
-/

namespace Retarget.Shell

/-- A word, an operator or the sign of a redirection. -/
inductive Lexeme where
  | word (w : Word)
  | operator (s : String)
  | redirect (stream : Nat) (direction : Direction)
  deriving DecidableEq, Repr

namespace Lexeme

/-- Why a text cannot be cut. -/
inductive Flaw where
  | unterminated
  deriving DecidableEq, Repr

/-- Whether a character may stand in a name; a digit may not open it. -/
def isNameChar (c : Char) : Bool :=
  c.isAlphanum || c = '_'

/-- Whether characters are a name. -/
def isName (cs : List Char) : Bool :=
  match cs with
  | [] => false
  | c :: _ => cs.all isNameChar && !c.isDigit

/-- The characters with a meaning of their own between double quotes. -/
def quotedSpecials : List Char :=
  ['"', '\\', '$', '\x60']

/-- The characters with a meaning of their own outside of quotes. -/
def specials : List Char :=
  quotedSpecials ++ ['\'', ' ', '\t', '\n', '|', '&', ';', '<', '>', '(', ')']

/-- Whether a character is ordinary between quotes or outside of them. -/
def isPlain (quoted : Bool) (c : Char) : Bool :=
  if quoted then !quotedSpecials.contains c else !specials.contains c

/-- The text up to the parenthesis that closes an open one, with the rest. -/
def nested (depth : Nat) : List Char → Except Flaw (List Char × List Char)
  | [] => .error .unterminated
  | ')' :: rest =>
    match depth with
    | 0 => .ok ([], rest)
    | d + 1 => (nested d rest).map fun (a, b) => (')' :: a, b)
  | c :: rest =>
    (nested (if c = '(' then depth + 1 else depth) rest).map fun (a, b) => (c :: a, b)

/-- Reads what stands after a dollar sign. -/
def readValue (quoted : Bool) (cs : List Char) : Except Flaw (Piece × List Char) :=
  match cs with
  | '(' :: rest => (nested 0 rest).map fun (a, b) => (.result quoted a, b)
  | '\x7b' :: rest =>
    let name := rest.takeWhile (· ≠ '\x7d')
    match rest.drop name.length with
    | [] => .error .unterminated
    | _ :: rest => .ok (.value quoted (String.ofList name), rest)
  | c :: rest =>
    if c.isDigit || ['@', '*', '#', '?', '$', '!', '-'].contains c then
      .ok (.value quoted (String.singleton c), rest)
    else
      let name := cs.takeWhile isNameChar
      if name = [] then .ok (.text quoted ['$'], cs)
      else .ok (.value quoted (String.ofList name), cs.drop name.length)
  | [] => .ok (.text quoted ['$'], [])

/-- Reads a command between backquotes. -/
def readBackquoted (quoted : Bool) (cs : List Char) : Except Flaw (Piece × List Char) :=
  let source := cs.takeWhile (· ≠ '\x60')
  match cs.drop source.length with
  | [] => .error .unterminated
  | _ :: rest => .ok (.result quoted source, rest)

/-- Reads the pieces between double quotes, at most `n`. -/
def readQuoted : Nat → List Char → Except Flaw (List Piece × List Char)
  | 0, _ => .error .unterminated
  | n + 1, cs => do
    match cs with
    | [] => .error .unterminated
    | '"' :: rest => .ok ([], rest)
    | '\\' :: c :: rest =>
      let (ps, rest) ← readQuoted n rest
      let piece := if c = '\n' then []
        else if isPlain true c then ['\\', c] else [c]
      .ok (.text true piece :: ps, rest)
    | '$' :: rest =>
      let (p, rest) ← readValue true rest
      let (ps, rest) ← readQuoted n rest
      .ok (p :: ps, rest)
    | '\x60' :: rest =>
      let (p, rest) ← readBackquoted true rest
      let (ps, rest) ← readQuoted n rest
      .ok (p :: ps, rest)
    | c :: rest =>
      let more := rest.takeWhile (isPlain true)
      let (ps, rest) ← readQuoted n (rest.drop more.length)
      .ok (.text true (c :: more) :: ps, rest)

/-- Reads the pieces of a word, at most `n`. -/
def readWord : Nat → List Char → Except Flaw (Word × List Char)
  | 0, cs => .ok ([], cs)
  | n + 1, cs => do
    match cs with
    | '\'' :: rest =>
      let inner := rest.takeWhile (· ≠ '\'')
      match rest.drop inner.length with
      | [] => .error .unterminated
      | _ :: rest =>
        let (ps, rest) ← readWord n rest
        .ok (.text true inner :: ps, rest)
    | '"' :: rest =>
      let (inner, rest) ← readQuoted (rest.length + 1) rest
      let (ps, rest) ← readWord n rest
      .ok (.text true [] :: inner ++ ps, rest)
    | '\\' :: c :: rest =>
      let (ps, rest) ← readWord n rest
      .ok (.text true (if c = '\n' then [] else [c]) :: ps, rest)
    | '$' :: rest =>
      let (p, rest) ← readValue false rest
      let (ps, rest) ← readWord n rest
      .ok (p :: ps, rest)
    | '\x60' :: rest =>
      let (p, rest) ← readBackquoted false rest
      let (ps, rest) ← readWord n rest
      .ok (p :: ps, rest)
    | c :: rest =>
      if isPlain false c then
        let more := rest.takeWhile (isPlain false)
        let (ps, rest) ← readWord n (rest.drop more.length)
        .ok (.text false (c :: more) :: ps, rest)
      else .ok ([], cs)
    | [] => .ok ([], [])

/-- Reads an operator. -/
def operator? : List Char → Option (String × List Char)
  | '&' :: '&' :: rest => some ("&&", rest)
  | '|' :: '|' :: rest => some ("||", rest)
  | ';' :: ';' :: rest => some (";;", rest)
  | '&' :: rest => some ("&", rest)
  | '|' :: rest => some ("|", rest)
  | ';' :: rest => some (";", rest)
  | '(' :: rest => some ("(", rest)
  | ')' :: rest => some (")", rest)
  | '\n' :: rest => some ("\n", rest)
  | _ => none

/-- Reads the sign of a redirection. -/
def redirect? : List Char → Option (Nat × Direction × List Char)
  | '>' :: '>' :: rest => some (1, .append, rest)
  | '>' :: '&' :: rest => some (1, .duplicate, rest)
  | '>' :: '|' :: rest => some (1, .write, rest)
  | '>' :: rest => some (1, .write, rest)
  | '<' :: '&' :: rest => some (0, .duplicate, rest)
  | '<' :: rest => some (0, .read, rest)
  | _ => none

/-- Reads the sign of a redirection that may have a stream's number in front. -/
def numberedRedirect? (cs : List Char) : Option (Nat × Direction × List Char) :=
  let digits := cs.takeWhile Char.isDigit
  match redirect? (cs.drop digits.length) with
  | none => none
  | some (stream, direction, rest) =>
    some (((String.ofList digits).toNat?).getD stream, direction, rest)

/-- Cuts a script into at most `n` pieces; `line` is the line at its start. -/
def cut : Nat → Nat → List Char → Except Flaw (List (Nat × Lexeme))
  | 0, _, _ => .ok []
  | n + 1, line, cs => do
    match cs with
    | [] => .ok []
    | ' ' :: rest => cut n line rest
    | '\t' :: rest => cut n line rest
    | '\\' :: '\n' :: rest => cut n (line + 1) rest
    | '#' :: rest => cut n line (rest.dropWhile (· ≠ '\n'))
    | _ =>
      match operator? cs with
      | some (s, rest) =>
        .ok ((line, .operator s) :: (← cut n (if s = "\n" then line + 1 else line) rest))
      | none =>
        match numberedRedirect? cs with
        | some (stream, direction, rest) =>
          .ok ((line, .redirect stream direction) :: (← cut n line rest))
        | none =>
          let (w, rest) ← readWord (cs.length + 1) cs
          let passed := (cs.take (cs.length - rest.length)).count '\n'
          .ok ((line, .word w) :: (← cut n (line + passed) rest))

/-- The lexemes of a script with their lines. -/
def ofText (cs : List Char) : Except Flaw (List (Nat × Lexeme)) :=
  cut (cs.length + 1) 1 cs

/-- The characters of a word that is written without quotes and parameters. -/
def bare? (w : Word) : Option (List Char) :=
  match w with
  | [.text false cs] => some cs
  | _ => none

end Lexeme

end Retarget.Shell
