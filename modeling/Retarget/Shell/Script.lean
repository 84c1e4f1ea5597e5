/-!
# Scripts

A `Script` is what a text in the shell's language says.  A word is a list of
pieces, each quoted or not; what stands in a nested command is kept as a text
and read when it is run.
-/

namespace Retarget.Shell

/-- A piece of a word. -/
inductive Piece where
  /-- characters that stand for themselves -/
  | text (quoted : Bool) (cs : List Char)
  /-- the value of a parameter -/
  | value (quoted : Bool) (name : String)
  /-- what a nested command writes -/
  | result (quoted : Bool) (source : List Char)
  deriving DecidableEq, Repr

/-- A word as it is written. -/
abbrev Word := List Piece

/-- What is done to a stream. -/
inductive Direction where
  | read
  | write
  | append
  | duplicate
  deriving DecidableEq, Repr

/-- A stream by its number, what is done to it and with which word. -/
structure Redirection where
  stream : Nat
  direction : Direction
  target : Word
  deriving DecidableEq, Repr

/-- A script. -/
inductive Script where
  /-- does nothing -/
  | nothing
  /-- assigns variables or runs a command, in a line of the text -/
  | call (line : Nat) (assignments : List (String × Word)) (words : List Word)
      (redirections : List Redirection)
  /-- one after the other -/
  | chain (first second : Script)
  /-- the second only if the first succeeds -/
  | both (first second : Script)
  /-- the second only if the first fails -/
  | either (first second : Script)
  /-- succeeds if the other fails -/
  | negate (body : Script)
  /-- the first writes what the second reads -/
  | pipe (first second : Script)
  /-- one of two -/
  | choose (condition yes no : Script)
  /-- as long as the condition succeeds, or until it does -/
  | loop (untilTrue : Bool) (condition body : Script)
  /-- once for each item; for each argument if no items are given -/
  | each (name : String) (items : Option (List Word)) (body : Script)
  /-- without effect on the variables outside -/
  | apart (body : Script)
  /-- with streams redirected -/
  | redirected (body : Script) (redirections : List Redirection)
  deriving Repr

end Retarget.Shell
