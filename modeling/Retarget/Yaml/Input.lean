/-!
# Characters of a YAML text

An `Input` is the rest of a text with the place where it begins.  Places count
lines and characters from zero.  A line ends at any of five line ends, and most
of them read as a line feed.
-/

namespace Retarget.Yaml

/-- A place in a text. -/
structure Mark where
  line : Nat
  column : Nat
  deriving DecidableEq, Repr

namespace Mark

/-- The start of a text. -/
def start : Mark :=
  ⟨0, 0⟩

/-- The wording of a place, counted from one; the start of a text has none. -/
def text (m : Mark) : String :=
  if m = start then ""
  else " at line " ++ toString (m.line + 1) ++ " column " ++ toString (m.column + 1)

end Mark

/-- What is wrong with a YAML text: the problem and its place, and what was
being read from what place on. -/
structure Fault where
  problem : String
  mark : Mark
  context : Option (String × Mark)
  deriving DecidableEq, Repr

namespace Fault

/-- The wording of a fault. -/
def message (f : Fault) : String :=
  f.problem ++ f.mark.text ++
    match f.context with
    | none => ""
    | some (c, m) => ", " ++ c ++ (if m = f.mark then "" else m.text)

end Fault

/-- Whether a character ends a line. -/
def isBreak (c : Char) : Bool :=
  c = '\n' || c = '\r' || c = '\u0085' || c = '\u2028' || c = '\u2029'

/-- Whether a character is a space or a tab. -/
def isBlank (c : Char) : Bool :=
  c = ' ' || c = '\t'

/-- The rest of a text. -/
structure Input where
  rest : List Char
  mark : Mark
  /-- the number of characters before the rest -/
  index : Nat
  deriving Repr

namespace Input

/-- A whole text. -/
def ofText (s : String) : Input :=
  let cs := s.toList
  ⟨if cs.head? = some '\ufeff' then cs.drop 1 else cs, .start, 0⟩

/-- The character some places ahead. -/
def peek (i : Input) (n : Nat) : Option Char :=
  i.rest[n]?

/-- Whether a certain character is some places ahead. -/
def has (i : Input) (n : Nat) (c : Char) : Bool :=
  i.peek n = some c

/-- Whether one of some characters comes next. -/
def startsAny (i : Input) (cs : String) : Bool :=
  match i.rest with
  | [] => false
  | c :: _ => cs.toList.contains c

/-- Whether a space, a tab, a line end or the end is some places ahead. -/
def blankAt (i : Input) (n : Nat) : Bool :=
  match i.peek n with
  | none => true
  | some c => isBlank c || isBreak c

/-- Whether a line end comes next. -/
def atBreak (i : Input) : Bool :=
  (i.rest.head?.map isBreak).getD false

/-- Whether a space or a tab comes next. -/
def atBlank (i : Input) : Bool :=
  (i.rest.head?.map isBlank).getD false

/-- Whether the text is at its end. -/
def atEnd (i : Input) : Bool :=
  i.rest.isEmpty

/-- The input behind the next character. -/
def skip (i : Input) : Input :=
  match i.rest with
  | [] => i
  | _ :: r => ⟨r, ⟨i.mark.line, i.mark.column + 1⟩, i.index + 1⟩

/-- The input some characters on. -/
def skips : Nat → Input → Input
  | 0, i => i
  | n + 1, i => skips n i.skip

/-- The line end that comes next, as it reads, with the input behind it. -/
def lineEnd (i : Input) : List Char × Input :=
  let next : Mark := ⟨i.mark.line + 1, 0⟩
  match i.rest with
  | '\r' :: '\n' :: r => (['\n'], ⟨r, next, i.index + 2⟩)
  | c :: r =>
    (if c = '\u2028' || c = '\u2029' then [c] else ['\n'], ⟨r, next, i.index + 1⟩)
  | [] => ([], i)

/-- The characters of the rest that pass a test, with the input behind them. -/
def takeWhile (p : Char → Bool) (i : Input) : List Char × Input :=
  let taken := i.rest.takeWhile p
  (taken, skips taken.length i)

/-- Whether the line opens with three equal characters that stand alone. -/
def opensWith (i : Input) (c : Char) : Bool :=
  i.mark.column = 0 && i.has 0 c && i.has 1 c && i.has 2 c && i.blankAt 3

/-- Whether the line opens with a marker between documents. -/
def atMarker (i : Input) : Bool :=
  i.opensWith '-' || i.opensWith '.'

/-- A fault at the place of the input. -/
def fault {α : Type} (i : Input) (problem : String) (context : Option (String × Mark)) :
    Except Fault α :=
  .error ⟨problem, i.mark, context⟩

end Input

/-- Blanks and line ends between two words of a scalar. -/
structure Gap where
  /-- the blanks, if no line ended -/
  blanks : List Char
  /-- the first line end, if a line ended -/
  first : Option (List Char)
  /-- the other line ends -/
  others : List Char

namespace Gap

/-- Nothing. -/
def none : Gap :=
  ⟨[], .none, []⟩

/-- What a gap reads as: a single line end as a space, several as one less. -/
def text (g : Gap) : List Char :=
  match g.first with
  | .none => g.blanks
  | some b =>
    if b.head? = some '\n' then (if g.others.isEmpty then [' '] else g.others)
    else b ++ g.others

/-- Reads the blanks and line ends that come next; `n` bounds their number.
`tab` refuses a tab at the start of a line. -/
def read (tab : Input → Except Fault Unit) : Nat → Gap → Input → Except Fault (Gap × Input)
  | 0, g, i => .ok (g, i)
  | n + 1, g, i =>
    if i.atBlank then do
      if g.first.isSome then tab i
      let g := if g.first.isSome then g else { g with blanks := g.blanks ++ i.rest.take 1 }
      read tab n g i.skip
    else if i.atBreak then
      let (b, rest) := i.lineEnd
      read tab n (if g.first.isSome then { g with others := g.others ++ b }
        else { g with blanks := [], first := some b }) rest
    else .ok (g, i)

end Gap

end Retarget.Yaml
