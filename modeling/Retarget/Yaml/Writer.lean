import Retarget.Yaml.Input
import Retarget.Yaml.Kind

/-!
# Writing YAML

`Yaml.write` writes a document of mappings, lists and strings in blocks.  A
string is written plain where it reads back as a string; one with several lines
becomes a literal block; else it is quoted, in double quotes only if single ones
will not do.
-/

namespace Retarget.Yaml

/-- How a string is written. -/
inductive Style where
  | plain
  | single
  | double
  | literal
  deriving DecidableEq, Repr

/-- Whether a character is written as it is.  Characters beyond `U+FFFF` are
not. -/
def isPrintable (c : Char) : Bool :=
  let n := c.toNat
  n = 0x0A || (0x20 ≤ n && n ≤ 0x7E) || (0xA0 ≤ n && n ≤ 0xD7FF) ||
    (0xE000 ≤ n && n ≤ 0xFFFD && n ≠ 0xFEFF)

/-- What matters about the characters of a string. -/
structure Traits where
  /-- whether a plain scalar would end or begin something else -/
  indicators : Bool
  lines : Bool
  special : Bool
  /-- whether a space or line end stands at one of the ends -/
  edge : Bool
  trailingSpace : Bool
  /-- whether a space follows a line end -/
  breakSpace : Bool
  /-- whether a line end follows a space -/
  spaceBreak : Bool

/-- Whether the end or a blank comes next. -/
def blankNext (cs : List Char) : Bool :=
  match cs with
  | [] => true
  | c :: _ => isBlank c || isBreak c

/-- Whether the first character of a string says that it is no plain scalar. -/
def indicatesFirst (cs : List Char) : Bool :=
  match cs with
  | [] => false
  | c :: r =>
    "#,[]\x7b\x7d&*!|>'\"%@\x60".toList.contains c ||
      ("?:-".toList.contains c && blankNext r)

/-- Whether later characters say that a string is no plain scalar; `before` is
the character before them. -/
def indicatesLater (before : Char) : List Char → Bool
  | [] => false
  | c :: r =>
    (c = ':' && blankNext r) || (c = '#' && blankNext [before]) || indicatesLater c r

/-- Whether some neighbours in a string pass a test. -/
def anyNeighbours (p : Char → Char → Bool) (cs : List Char) : Bool :=
  (cs.zip (cs.drop 1)).any fun x => p x.1 x.2

/-- What matters about a string. -/
def Traits.of (s : String) : Traits :=
  let cs := s.toList
  let marker := "---".toList.isPrefixOf cs || "...".toList.isPrefixOf cs
  let spaceOrBreak (c : Char) : Bool := c = ' ' || isBreak c
  { indicators := marker || indicatesFirst cs || (cs.head?.any fun c => indicatesLater c (cs.drop 1))
    lines := cs.any isBreak
    special := cs.any fun c => !isPrintable c
    edge := cs.head?.any spaceOrBreak || cs.getLast?.any spaceOrBreak
    trailingSpace := cs.getLast? = some ' '
    breakSpace := anyNeighbours (fun a b => isBreak a && b = ' ') cs
    spaceBreak := anyNeighbours (fun a b => a = ' ' && isBreak b) cs }

/-- How a string is written. -/
def styleOf (s : String) : Style :=
  let t := Traits.of s
  let quoted : Style :=
    if t.breakSpace || t.spaceBreak || t.special then .double else .single
  if s.toList.contains '\n' then
    if t.trailingSpace || t.spaceBreak || t.special then .double else .literal
  else if Kind.isAmbiguous s || t.indicators || t.edge || t.lines || t.breakSpace ||
      t.spaceBreak || t.special then quoted
  else .plain

/-- A line break and an indent. -/
def newLine (indent : Nat) : List Char :=
  '\n' :: List.replicate indent ' '

/-- The inside of single quotes; `broken` says that a line has just ended. -/
def singleQuoted (indent : Nat) (broken : Bool) : List Char → List Char
  | [] => if broken then List.replicate indent ' ' else []
  | c :: r =>
    if isBreak c then c :: singleQuoted indent true r
    else
      (if broken then List.replicate indent ' ' else []) ++
        (if c = '\'' then ['\'', '\''] else [c]) ++ singleQuoted indent false r

/-- Hexadecimal digits, as many as given. -/
def hexDigits (n : Nat) : Nat → List Char
  | 0 => []
  | k + 1 =>
    hexDigits (n / 16) k ++ [if n % 16 < 10 then Char.ofNat (48 + n % 16) else Char.ofNat (55 + n % 16)]

/-- The letter of the escape of a character. -/
def escapeLetter? (c : Char) : Option Char :=
  match c with
  | '\x00' => some '0'
  | '\x07' => some 'a'
  | '\x08' => some 'b'
  | '\t' => some 't'
  | '\n' => some 'n'
  | '\x0b' => some 'v'
  | '\x0c' => some 'f'
  | '\r' => some 'r'
  | '\x1b' => some 'e'
  | '"' => some '"'
  | '\\' => some '\\'
  | '\u0085' => some 'N'
  | '\u2028' => some 'L'
  | '\u2029' => some 'P'
  | _ => none

/-- A character inside double quotes. -/
def doubleQuoted (c : Char) : List Char :=
  if isPrintable c && !isBreak c && c ≠ '"' && c ≠ '\\' then [c]
  else match escapeLetter? c with
    | some l => ['\\', l]
    | none =>
      let n := c.toNat
      if n ≤ 0xFF then '\\' :: 'x' :: hexDigits n 2
      else if n ≤ 0xFFFF then '\\' :: 'u' :: hexDigits n 4
      else '\\' :: 'U' :: hexDigits n 8

/-- The signs behind the bar of a literal block: whether it begins with blanks,
and how its last line ends. -/
def blockSigns (cs : List Char) : List Char :=
  (if cs.head?.any fun c => c = ' ' || isBreak c then ['2'] else []) ++
    match cs.reverse with
    | [] => ['-']
    | c :: before =>
      if !isBreak c then ['-']
      else match before with
        | [] => ['+']
        | b :: _ => if isBreak b then ['+'] else []

/-- The lines of a literal block; `broken` says that a line has just ended. -/
def literalLines (indent : Nat) (broken : Bool) : List Char → List Char
  | [] => []
  | c :: r =>
    if isBreak c then c :: literalLines indent true r
    else
      (if broken then List.replicate indent ' ' else []) ++ c :: literalLines indent false r

/-- What has been written: the text, whether it ends with a line break, and
whether a block at its end keeps empty lines. -/
structure Written where
  text : List Char
  closed : Bool
  keeps : Bool

namespace Written

/-- Nothing has been written. -/
def empty : Written :=
  ⟨[], true, false⟩

/-- Adds characters to the line. -/
def add (w : Written) (cs : List Char) : Written :=
  if cs.isEmpty then w else ⟨w.text ++ cs, false, false⟩

/-- Starts a line with an indent. -/
def line (w : Written) (indent : Nat) : Written :=
  let w := if w.closed then w else { w with text := w.text ++ ['\n'], closed := true }
  { w with text := w.text ++ List.replicate indent ' ' }

end Written

/-- Writes a string; `indent` is that of further lines. -/
def writeString (w : Written) (indent : Nat) (s : String) : Written :=
  let cs := s.toList
  match styleOf s with
  | .plain => w.add cs
  | .single => w.add ('\'' :: singleQuoted indent false cs ++ ['\''])
  | .double => w.add ('"' :: cs.flatMap doubleQuoted ++ ['"'])
  | .literal =>
    let signs := blockSigns cs
    let w := w.add ('|' :: signs ++ ['\n'])
    ⟨w.text ++ literalLines indent true cs, cs.getLast?.any isBreak, signs.contains '+'⟩

/-- Whether a key fits on one line with its colon. -/
def isSimpleKey (k : String) : Bool :=
  !(k.toList.any isBreak) && k.utf8ByteSize ≤ 128

mutual

/-- Writes a value behind a dash or a colon.  `deep` is the indent of what a
value holds, `flat` that of the items of a list. -/
def writeValue (w : Written) (deep flat : Nat) : Json → Written
  | .string s => writeString (w.add [' ']) deep s
  | .array [] => w.add " []".toList
  | .array xs => writeItems w flat xs
  | .object [] => w.add " \x7b\x7d".toList
  | .object ms => writeMembers w deep true ms
  | .null => w.add " null".toList
  | .bool b => w.add (if b then " true" else " false").toList
  | .number n => w.add (' ' :: n.text.toList)

/-- Writes the items of a list, each on a line of its own. -/
def writeItems (w : Written) (indent : Nat) : List Json → Written
  | [] => w
  | x :: xs =>
    let w := (w.line indent).add ['-']
    let w := match x with
      | .object (m :: ms) => writeMembers (w.add [' ']) (indent + 2) false (m :: ms)
      | x => writeValue w (indent + 2) (indent + 2) x
    writeItems w indent xs

/-- Writes members, each on a line of its own; `fresh` says whether the first
one starts a line. -/
def writeMembers (w : Written) (indent : Nat) (fresh : Bool) : List (String × Json) → Written
  | [] => w
  | (k, v) :: ms =>
    let w := if fresh then w.line indent else w
    let w :=
      if isSimpleKey k then (writeString w (indent + 2) k).add [':']
      else ((writeString (w.add ['?', ' ']) (indent + 2) k).line indent).add [':']
    writeMembers (writeValue w (indent + 2) indent v) indent true ms

end

/-- The text of a mapping. -/
def write (members : Members) : String :=
  let w := (writeMembers .empty 0 true members).line 0
  String.ofList (w.text ++ if w.keeps then "...\n".toList else [])

end Retarget.Yaml
