import Retarget.Diff.Script

/-!
# Hunks

A `Hunk` is a part of an edit script: changes that stand close together, with a
few equal lines around them.  `Hunk.ofScript` cuts a script at every stretch of
equal lines that is longer than the context on both of its sides.
-/

namespace Retarget

/-- Changes that stand close together, with their context. -/
abbrev Hunk := List Edit

namespace Hunk

/-- How many equal lines surround a change. -/
def context : Nat := 3

/-- A step at the start of a script, reduced to the context of what follows. -/
def trimFirst (e : Edit) : Edit :=
  if e.tag = .equal then e.shrinkRight (e.oldSize - context) else e

/-- A step at the end of a script, reduced to the context of what precedes. -/
def trimLast (e : Edit) : Edit :=
  if e.tag = .equal then e.shrinkLeft (e.oldSize - context) else e

/-- Applies a function to the first member of a list. -/
def onHead (f : Edit → Edit) : List Edit → List Edit
  | [] => []
  | e :: rest => f e :: rest

/-- Applies a function to the last member of a list. -/
def onLast (f : Edit → Edit) (es : List Edit) : List Edit :=
  (onHead f es.reverse).reverse

/-- Whether a group holds equal lines at most. -/
def isQuiet : Hunk → Bool
  | [] => true
  | [e] => e.tag = .equal
  | _ => false

/-- Cuts a script into groups; `open_` is the group being filled. -/
def cut (open_ : Hunk) : List Edit → List Hunk
  | [] => if isQuiet open_ then [] else [open_]
  | e :: rest =>
    if e.tag = .equal && 2 * context < e.oldSize then
      (open_ ++ [e.shrinkLeft (e.oldSize - context)]) ::
        cut [e.shrinkRight (e.oldSize - context)] rest
    else cut (open_ ++ [e]) rest

/-- The hunks of a script. -/
def ofScript (script : List Edit) : List Hunk :=
  cut [] (onLast trimLast (onHead trimFirst script))

/-- A range of lines: its first line and its length, which is left out for a
single line; an empty range names the line before it. -/
def range (start stop : Nat) : String :=
  if stop - start = 1 then toString (start + 1)
  else if stop - start = 0 then toString start ++ ",0"
  else toString (start + 1) ++ "," ++ toString (stop - start)

/-- The line that opens a hunk. -/
def header (h : Hunk) : String :=
  match h.head?, h.getLast? with
  | some a, some b =>
    "@@ -" ++ range a.old (b.old + b.oldSize) ++ " +" ++ range a.new (b.new + b.newSize) ++ " @@"
  | _, _ => ""

end Hunk

end Retarget
