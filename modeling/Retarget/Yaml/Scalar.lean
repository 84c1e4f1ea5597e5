import Retarget.Yaml.Input

/-!
# Scalars of a YAML text

Readers for the four ways to write a scalar: plain, in single quotes, in double
quotes, and as a block of lines.  Line ends inside plain and quoted scalars are
folded; a block keeps or folds them as its header says.
-/

namespace Retarget.Yaml

/-! ### Plain scalars -/

/-- Whether a plain scalar ends before the next character. -/
def endsPlain (flow : Bool) (i : Input) : Bool :=
  i.blankAt 0 || (i.has 0 ':' && i.blankAt 1) || (flow && i.startsAny ",[]\x7b\x7d")

/-- Reads a word of a plain scalar; `n` bounds its length. -/
def plainWord (flow : Bool) (start : Mark) : Nat → Input → Except Fault (List Char × Input)
  | 0, i => .ok ([], i)
  | n + 1, i =>
    if flow && i.has 0 ':' && i.skip.startsAny ",?[]\x7b\x7d" then
      i.fault "found unexpected ':'" (some ("while scanning a plain scalar", start))
    else if endsPlain flow i then .ok ([], i)
    else do
      let (w, rest) ← plainWord flow start n i.skip
      return (i.rest.take 1 ++ w, rest)

/-- Refuses a tab before the indent of a plain scalar. -/
def plainTab (indent : Nat) (start : Mark) (i : Input) : Except Fault Unit :=
  if i.has 0 '\t' && i.mark.column < indent then
    i.fault "found a tab character that violates indentation"
      (some ("while scanning a plain scalar", start))
  else .ok ()

/-- Reads words of a plain scalar after a gap; tells also whether lines ended
behind the last word.  `n` bounds the words. -/
def plainWords (flow : Bool) (indent : Nat) (start : Mark) :
    Nat → Gap → Input → Except Fault (List Char × Bool × Input)
  | 0, g, i => .ok ([], g.first.isSome, i)
  | n + 1, g, i =>
    if i.atMarker || i.has 0 '#' then .ok ([], g.first.isSome, i)
    else do
      let (w, rest) ← plainWord flow start (i.rest.length + 1) i
      let before := if w.isEmpty then [] else g.text
      let g := if w.isEmpty then g else Gap.none
      if !(rest.atBlank || rest.atBreak) then return (before ++ w, g.first.isSome, rest)
      let (g, rest) ← g.read (plainTab indent start) (rest.rest.length + 1) rest
      if !flow && rest.mark.column < indent then return (before ++ w, g.first.isSome, rest)
      let (more, lines, rest) ← plainWords flow indent start n g rest
      return (before ++ w ++ more, lines, rest)

/-! ### Quoted scalars -/

/-- The character that an escape of one letter stands for. -/
def escaped? (c : Char) : Option Char :=
  match c with
  | '0' => some '\x00'
  | 'a' => some '\x07'
  | 'b' => some '\x08'
  | 't' => some '\t'
  | '\t' => some '\t'
  | 'n' => some '\n'
  | 'v' => some '\x0b'
  | 'f' => some '\x0c'
  | 'r' => some '\r'
  | 'e' => some '\x1b'
  | ' ' => some ' '
  | '"' => some '"'
  | '/' => some '/'
  | '\\' => some '\\'
  | 'N' => some '\u0085'
  | '_' => some '\u00a0'
  | 'L' => some '\u2028'
  | 'P' => some '\u2029'
  | _ => none

/-- The number of hexadecimal digits behind the letter of an escape. -/
def codeLength (c : Char) : Nat :=
  if c = 'x' then 2 else if c = 'u' then 4 else if c = 'U' then 8 else 0

/-- The value of a hexadecimal digit. -/
def hexDigit? (c : Char) : Option Nat :=
  if c.isDigit then some (c.toNat - 48)
  else if 'a' ≤ c && c ≤ 'f' then some (c.toNat - 87)
  else if 'A' ≤ c && c ≤ 'F' then some (c.toNat - 55)
  else none

/-- Reads an escape after its backslash. -/
def readEscape (start : Mark) (i : Input) : Except Fault (Char × Input) :=
  let context := some ("while parsing a quoted scalar", start)
  let letter := (i.peek 1).getD '\x01'
  match escaped? letter with
  | some c => .ok (c, i.skips 2)
  | none =>
    let n := codeLength letter
    if n = 0 then i.fault "found unknown escape character" context
    else
      let digits := ((i.skips 2).rest.take n).filterMap hexDigit?
      if digits.length < n then
        (i.skips 2).fault "did not find expected hexdecimal number" context
      else
        let code := digits.foldl (fun v d => v * 16 + d) 0
        if (0xD800 ≤ code && code ≤ 0xDFFF) || 0x10FFFF < code then
          (i.skips 2).fault "found invalid Unicode character escape code" context
        else .ok (Char.ofNat code, i.skips (2 + n))

/-- Reads characters of a quoted scalar up to a blank, a line end or the closing
quote; an escaped line end counts as a gap that has begun.  `n` bounds the
characters. -/
def quotedWord (quote : Char) (start : Mark) : Nat → Input → Except Fault (List Char × Gap × Input)
  | 0, i => .ok ([], Gap.none, i)
  | n + 1, i =>
    if i.blankAt 0 then .ok ([], Gap.none, i)
    else if quote = '\'' && i.has 0 '\'' && i.has 1 '\'' then do
      let (w, g, rest) ← quotedWord quote start n (i.skips 2)
      return ('\'' :: w, g, rest)
    else if i.has 0 quote then .ok ([], Gap.none, i)
    else if quote = '"' && i.has 0 '\\' then
      if i.skip.atBreak then .ok ([], { Gap.none with first := some [] }, i.skip.lineEnd.2)
      else do
        let (c, rest) ← readEscape start i
        let (w, g, rest) ← quotedWord quote start n rest
        return (c :: w, g, rest)
    else do
      let (w, g, rest) ← quotedWord quote start n i.skip
      return (i.rest.take 1 ++ w, g, rest)

/-- Reads a quoted scalar after its opening quote; `n` bounds the words. -/
def quotedWords (quote : Char) (start : Mark) : Nat → Input → Except Fault (List Char × Input)
  | 0, i => .ok ([], i)
  | n + 1, i =>
    let context := some ("while scanning a quoted scalar", start)
    if i.atMarker then i.fault "found unexpected document indicator" context
    else if i.atEnd then i.fault "found unexpected end of stream" context
    else do
      let (w, g, rest) ← quotedWord quote start (i.rest.length + 1) i
      if rest.has 0 quote then return (w, rest.skip)
      let (g, rest) ← g.read (fun _ => .ok ()) (rest.rest.length + 1) rest
      let (more, rest) ← quotedWords quote start n rest
      return (w ++ g.text ++ more, rest)

/-- Reads a quoted scalar. -/
def readQuoted (quote : Char) (i : Input) : Except Fault (List Char × Input) :=
  quotedWords quote i.mark (i.rest.length + 1) i.skip

/-! ### Blocks -/

/-- What happens to the line ends behind the last line of a block. -/
inductive Chomping where
  | strip
  | clip
  | keep
  deriving DecidableEq, Repr

/-- The header of a block. -/
structure BlockHeader where
  chomping : Chomping
  /-- the indent, if it is given -/
  increment : Nat

/-- Reads a sign about line ends. -/
def readChomping (i : Input) : Option Chomping × Input :=
  if i.has 0 '+' then (some .keep, i.skip)
  else if i.has 0 '-' then (some .strip, i.skip)
  else (none, i)

/-- Reads a digit about the indent. -/
def readIncrement (start : Mark) (i : Input) : Except Fault (Nat × Input) :=
  match i.peek 0 with
  | some c =>
    if c = '0' then
      i.fault "found an indentation indicator equal to 0"
        (some ("while scanning a block scalar", start))
    else if c.isDigit then .ok (c.toNat - 48, i.skip)
    else .ok (0, i)
  | none => .ok (0, i)

/-- Reads the header of a block, the signs in either order. -/
def readHeader (start : Mark) (i : Input) : Except Fault (BlockHeader × Input) := do
  let (first, i) := readChomping i
  let (increment, i) ← readIncrement start i
  match first with
  | some c => return (⟨c, increment⟩, i)
  | none =>
    let (second, j) := if increment = 0 then (none, i) else readChomping i
    return (⟨second.getD .clip, increment⟩, j)

/-- Skips the indent of a line, and empty lines; gives the line ends, and the
widest indent seen.  An indent of zero is not known yet.  `n` bounds the
steps. -/
def blockBreaks (start : Mark) (indent : Nat) :
    Nat → Nat → Input → Except Fault (List Char × Nat × Input)
  | 0, widest, i => .ok ([], widest, i)
  | n + 1, widest, i =>
    let spaces := (i.rest.takeWhile (· = ' ')).length
    let i := i.skips (if indent = 0 then spaces else min spaces (indent - i.mark.column))
    let widest := max widest i.mark.column
    if (indent = 0 || i.mark.column < indent) && i.has 0 '\t' then
      i.fault "found a tab character where an indentation space is expected"
        (some ("while scanning a block scalar", start))
    else if i.atBreak then do
      let (b, rest) := i.lineEnd
      let (more, widest, rest) ← blockBreaks start indent n widest rest
      return (b ++ more, widest, rest)
    else .ok ([], widest, i)

/-- The text of the lines of a block: `lead` is the line end behind the line
before, `breaks` are those of empty lines, and `blank` tells whether that line
began with a blank.  `n` bounds the lines. -/
def blockLines (fold : Bool) (chomping : Chomping) (start : Mark) (indent : Nat) :
    Nat → List Char → List Char → Bool → Input → Except Fault (List Char × Input)
  | 0, _, _, _, i => .ok ([], i)
  | n + 1, lead, breaks, blank, i =>
    if i.mark.column = indent && !i.atEnd then do
      let joined := fold && lead.head? = some '\n' && !blank && !i.atBlank
      let before := (if joined then (if breaks.isEmpty then [' '] else []) else lead) ++ breaks
      let (line, rest) := i.takeWhile fun c => !isBreak c
      let (next, behind) := rest.lineEnd
      let (breaks, _, behind) ←
        blockBreaks start indent (behind.rest.length + 1) 0 behind
      let (more, behind) ← blockLines fold chomping start indent n next breaks i.atBlank behind
      return (before ++ line ++ more, behind)
    else
      .ok ((if chomping = .strip then [] else lead) ++ (if chomping = .keep then breaks else []), i)

/-- Reads a block that stands in a collection with an indent, which is below
zero outside of all collections. -/
def readBlock (fold : Bool) (outer : Int) (i : Input) : Except Fault (List Char × Input) := do
  let start := i.mark
  let (header, i) ← readHeader start i.skip
  let (_, i) := i.takeWhile isBlank
  let (_, i) := if i.has 0 '#' then i.takeWhile fun c => !isBreak c else ([], i)
  if !i.atEnd && !i.atBreak then
    i.fault "did not find expected comment or line break"
      (some ("while scanning a block scalar", start))
  else
    let (_, i) := i.lineEnd
    let known := if header.increment = 0 then 0 else (max outer 0).toNat + header.increment
    let (breaks, widest, i) ← blockBreaks start known (i.rest.length + 1) 0 i
    let indent := if known = 0 then max (max widest (outer + 1).toNat) 1 else known
    blockLines fold header.chomping start indent (i.rest.length + 1) [] breaks false i

end Retarget.Yaml
