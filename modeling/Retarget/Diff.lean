import Retarget.Diff.Hunk
import Retarget.Path

/-!
# Line diffs

The difference of two texts, line by line.  `Diff.unified` shows it as hunks
with context, with or without colours, and `LineCount` counts the lines that
came and went.
-/

namespace Retarget

namespace Diff

/-- The lines of a text with their line ends, which are a line feed, a carriage
return, or the two together.  `line` is the line being read, backwards. -/
def splitLines (line : List Char) : List Char → List (List Char)
  | [] => if line = [] then [] else [line.reverse]
  | '\r' :: '\n' :: rest => ('\n' :: '\r' :: line).reverse :: splitLines [] rest
  | c :: rest =>
    if c = '\n' || c = '\r' then (c :: line).reverse :: splitLines [] rest
    else splitLines (c :: line) rest

/-- The lines of a text with their line ends. -/
def lines (s : String) : Array String :=
  ((splitLines [] s.toList).map String.ofList).toArray

/-- What becomes of a line. -/
inductive Fate where
  | kept
  | gone
  | come
  deriving DecidableEq, Repr

namespace Fate

/-- The sign in front of a line. -/
def sign : Fate → String
  | kept => " "
  | gone => "-"
  | come => "+"

/-- The sequence that switches to the colour of a line. -/
def color? : Fate → Option String
  | kept => none
  | gone => some "\x1b[31m"
  | come => some "\x1b[32m"

end Fate

/-- The sequence that switches to the colour of a header. -/
def headerColor : String := "\x1b[36m"

/-- The sequence that switches back to the usual colour. -/
def plainColor : String := "\x1b[0m"

/-- The lines of one text that a step covers, with their fate. -/
def slice (lines : Array String) (start size : Nat) (f : Fate) : List (Fate × String) :=
  (lines.toList.drop start |>.take size).map fun l => (f, l)

/-- The lines that a step shows: those that go before those that come. -/
def linesOf (s : Script.Sides) (e : Edit) : List (Fate × String) :=
  if e.tag = .equal then slice s.old e.old e.oldSize .kept
  else slice s.old e.old e.oldSize .gone ++ slice s.new e.new e.newSize .come

/-- The shown form of a line. -/
def showLine (color : Bool) (x : Fate × String) : String :=
  let close := if x.2.toList.getLast? = some '\n' then "" else "\n"
  match x.1.color? with
  | some c =>
    if color then c ++ x.1.sign ++ x.2 ++ plainColor ++ close else x.1.sign ++ x.2 ++ close
  | none => x.1.sign ++ x.2 ++ close

/-- The shown form of a header line. -/
def showHeader (color : Bool) (s : String) : String :=
  if color then headerColor ++ s ++ plainColor ++ "\n" else s ++ "\n"

/-- The two texts as lists of lines. -/
def sides (old new : String) : Script.Sides :=
  ⟨lines old, lines new⟩

/-- The difference of two texts as hunks with context. -/
def unified (color : Bool) (path : Path) (old new : String) : String :=
  let s := sides old new
  let hunks := Hunk.ofScript (Script.between s)
  showHeader color ("--- a/" ++ path.text) ++ showHeader color ("+++ b/" ++ path.text) ++
    String.join (hunks.map fun h =>
      showHeader color h.header ++ String.join ((h.flatMap (linesOf s)).map (showLine color)))

end Diff

/-- How many files changed, and how many lines came and went. -/
structure LineCount where
  files : Nat
  insertions : Nat
  deletions : Nat
  deriving DecidableEq, Repr

namespace LineCount

/-- Nothing changed. -/
def zero : LineCount :=
  ⟨0, 0, 0⟩

/-- The count for one file. -/
def between (old new : String) : LineCount :=
  let s := Diff.sides old new
  let ls := (Script.between s).flatMap (Diff.linesOf s)
  let come := ls.countP fun x => x.1 = .come
  let gone := ls.countP fun x => x.1 = .gone
  ⟨if come = 0 && gone = 0 then 0 else 1, come, gone⟩

/-- The counts of two sets of files together. -/
def add (a b : LineCount) : LineCount :=
  ⟨a.files + b.files, a.insertions + b.insertions, a.deletions + b.deletions⟩

/-- The wording of a count. -/
def text (c : LineCount) : String :=
  toString c.files ++ " file(s) changed, " ++ toString c.insertions ++ " insertions(+), " ++
    toString c.deletions ++ " deletions(-)"

end LineCount

end Retarget
