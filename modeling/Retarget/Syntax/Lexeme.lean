import Retarget.Text.Blank

/-!
# Lexemes

The words, numbers, strings, comments and marks of a TypeScript text.  A
`Scan` looks at the head of a text and measures the lexeme it finds there in
characters, or finds none.
-/

namespace Retarget.Syntax

/-- Measures the lexeme at the head of a text. -/
abbrev Scan := List Char → Option Nat

namespace Lexeme

/-- Whether a character may stand between two lexemes. -/
def isGap (c : Char) : Bool :=
  Text.isBlank c || c == '\uFEFF' || c == '\u2060' || c == '\u200B'

/-- The marks of ASCII that no word holds. -/
def isMark (c : Char) : Bool :=
  ":;\x60\"'@#.,|^&<=>+-*/\\%?!~()[]\x7b\x7d".toList.contains c

/-- Whether a character may stand inside a word. -/
def isWordChar (c : Char) : Bool :=
  if c.isAlphanum then true
  else 0x20 ≤ c.toNat && !isGap c && !isMark c

/-- Whether a character may open a word. -/
def isWordStart (c : Char) : Bool :=
  isWordChar c && !c.isDigit

/-- Whether a character is a hexadecimal digit. -/
def isHex (c : Char) : Bool :=
  c.isDigit || ('a' ≤ c && c ≤ 'f') || ('A' ≤ c && c ≤ 'F')

/-- Whether a character is an octal digit. -/
def isOctal (c : Char) : Bool :=
  '0' ≤ c && c ≤ '7'

/-- The length of the longest head all of whose characters pass `p`. -/
def run (p : Char → Bool) : List Char → Nat
  | [] => 0
  | c :: r => if p c then run p r + 1 else 0

/-- The length of a non-empty run. -/
def run1 (p : Char → Bool) : Scan := fun cs =>
  match run p cs with
  | 0 => none
  | n => some n

/-- The length of a given spelling at the head of the text. -/
def spelled (word : List Char) : Scan := fun cs =>
  if word.isPrefixOf cs then some word.length else none

/-- One scan after the other. -/
def andThen (a b : Scan) : Scan := fun cs => do
  let n ← a cs
  let m ← b (cs.drop n)
  return n + m

/-- The longer of two scans. -/
def longest (a b : Scan) : Scan := fun cs =>
  match a cs, b cs with
  | some n, some m => some (max n m)
  | some n, none => some n
  | none, m => m

/-- A scan, or nothing. -/
def orNothing (a : Scan) : Scan := fun cs =>
  some ((a cs).getD 0)

/-- A unicode escape inside a word: four digits, or any number in braces. -/
def wordEscape : Scan := fun cs =>
  match cs with
  | '\\' :: 'u' :: '\x7b' :: r =>
    match run isHex r with
    | 0 => none
    | n => if (r.drop n).head? = some '\x7d' then some (n + 4) else none
  | '\\' :: 'u' :: r => if 4 ≤ run isHex (r.take 4) then some 6 else none
  | _ => none

/-- The rest of a word, escapes included; `n` bounds the number of pieces. -/
def wordRest : Nat → List Char → Nat
  | 0, _ => 0
  | n + 1, cs =>
    match wordEscape cs with
    | some k => k + wordRest n (cs.drop k)
    | none =>
      match run isWordChar cs with
      | 0 => 0
      | k => k + wordRest n (cs.drop k)

/-- A word: an identifier or a keyword. -/
def word : Scan := fun cs =>
  match cs with
  | [] => none
  | c :: r =>
    if isWordStart c then
      let n := run isWordChar r
      if (r.drop n).head? = some '\\' then some (1 + wordRest r.length r) else some (1 + n)
    else if c = '\\' then (wordEscape cs).map fun k => k + wordRest r.length (cs.drop k)
    else none

/-- A word with a given spelling. -/
def keyword (spelling : List Char) : Scan := fun cs =>
  if spelling.isPrefixOf cs && word cs = some spelling.length then some spelling.length else none

/-- A word that is none of the given ones. -/
def wordExcept (reserved : List (List Char)) : Scan := fun cs => do
  let n ← word cs
  if reserved.contains (cs.take n) then none else some n

/-- A mark that is not followed by one of the given characters. -/
def mark (spelling : List Char) (notBefore : List Char) : Scan := fun cs => do
  let n ← spelled spelling cs
  match cs.drop n with
  | [] => some n
  | c :: _ => if notBefore.contains c then none else some n

/-- Digits that pass `p`, single underscores allowed between them; `n` bounds
the number of groups. -/
def digitGroups (p : Char → Bool) : Nat → Scan
  | 0, _ => none
  | n + 1, cs =>
    match run p cs with
    | 0 => none
    | k =>
      match cs.drop k with
      | '_' :: r => some (k + ((digitGroups p n r).map (· + 1)).getD 0)
      | _ => some k

/-- Digits in groups. -/
def digits (p : Char → Bool) : Scan := fun cs =>
  digitGroups p cs.length cs

/-- Digits in another base after their mark. -/
def based (lower upper : Char) (p : Char → Bool) : Scan := fun cs =>
  match cs with
  | '0' :: c :: r => if c = lower || c = upper then (digits p r).map (· + 2) else none
  | _ => none

/-- The exponent of a decimal number. -/
def exponent : Scan := fun cs =>
  match cs with
  | c :: r =>
    if c = 'e' || c = 'E' then
      match r with
      | '+' :: r' => (digits Char.isDigit r').map (· + 2)
      | '-' :: r' => (digits Char.isDigit r').map (· + 2)
      | _ => (digits Char.isDigit r).map (· + 1)
    else none
  | [] => none

/-- The whole part of a decimal number: zero, or digits whose first one, after
at most one leading zero, is not zero. -/
def decimalWhole : Scan := fun cs =>
  match cs with
  | '0' :: c :: _ => if '1' ≤ c && c ≤ '9' then digits Char.isDigit cs else some 1
  | ['0'] => some 1
  | _ => digits Char.isDigit cs

/-- A decimal number. -/
def decimal : Scan :=
  longest
    (longest
      (andThen decimalWhole
        (andThen (spelled ['.']) (andThen (orNothing (digits Char.isDigit)) (orNothing exponent))))
      (andThen (spelled ['.']) (andThen (digits Char.isDigit) (orNothing exponent))))
    (longest (andThen decimalWhole exponent) (digits Char.isDigit))

/-- A number: in base sixteen, two, eight or ten; the letter `n` marks a whole
number of any size. -/
def number : Scan :=
  let whole := longest (based 'x' 'X' isHex)
    (longest (based 'b' 'B' fun c => c = '0' || c = '1') (based 'o' 'O' isOctal))
  longest (longest whole decimal)
    (andThen (longest whole (digits Char.isDigit)) (spelled ['n']))

/-- An escape inside a string or template. -/
def escape : Scan := fun cs =>
  match cs with
  | '\\' :: '\r' :: '\n' :: _ => some 3
  | '\\' :: 'x' :: r => if 2 ≤ run isHex (r.take 2) then some 4 else none
  | '\\' :: 'u' :: _ => wordEscape cs
  | '\\' :: c :: r =>
    if isOctal c then some (2 + run isOctal (r.take 2)) else some 2
  | _ => none

/-- The plain part of a string up to its quote, an escape or the end of the
line. -/
def stringChars (quote : Char) : Scan :=
  run1 fun c => c != quote && c != '\\' && c != '\r' && c != '\n'

/-- The plain part of a template up to its end, an escape or a substitution. -/
def templateRun : List Char → Option Nat
  | [] => none
  | c :: r =>
    if c = '\x60' || c = '\\' then some 0
    else if c = '$' && r.head? = some '\x7b' then some 0
    else (templateRun r).map (· + 1)

/-- A non-empty plain part of a template. -/
def templateChars : Scan := fun cs =>
  match templateRun cs with
  | some 0 => none
  | n => n

/-- The pattern of a regular expression, up to the closing slash; brackets
shield a slash. -/
def regexRun : Bool → List Char → Option Nat
  | inClass, '\\' :: c :: r => if c = '\n' then none else (regexRun inClass r).map (· + 2)
  | true, ']' :: r => (regexRun false r).map (· + 1)
  | false, '[' :: r => (regexRun true r).map (· + 1)
  | false, '/' :: _ => some 0
  | inClass, c :: r => if c = '\n' || c = '\\' then none else (regexRun inClass r).map (· + 1)
  | _, [] => none

/-- The pattern of a regular expression. -/
def regexPattern : Scan := fun cs =>
  match regexRun false cs with
  | some 0 => none
  | n => n

/-- The text between the tags of a markup element; line breaks with the blanks
around them are no text. -/
def markupRun : Bool → Bool → Nat → List Char → Option Nat
  | _, saw, n, [] => if saw then some n else none
  | atBreak, saw, n, c :: r =>
    if "<>\x7b\x7d&".toList.contains c then (if saw then some n else none)
    else if c = '\n' then markupRun true saw (n + 1) r
    else
      let still := atBreak && Text.isBlank c
      markupRun still (saw || !still) (n + 1) r

/-- The text between the tags of a markup element. -/
def markupText : Scan :=
  markupRun false false 0

/-- A named or numbered character in markup. -/
def characterReference : Scan := fun cs =>
  match cs with
  | '&' :: r =>
    let body := r.takeWhile (· != ';')
    let ok := match body with
      | '#' :: 'x' :: d => d ≠ [] && d.length ≤ 6 && d.all isHex
      | '#' :: 'X' :: d => d ≠ [] && d.length ≤ 6 && d.all isHex
      | '#' :: d => d ≠ [] && d.length ≤ 5 && d.all Char.isDigit
      | d => d ≠ [] && d.length ≤ 30 && d.all Char.isAlpha
    if ok && body.length < r.length then some (body.length + 2) else none
  | _ => none

/-- A tag or attribute name with a hyphen inside. -/
def hyphenated : Scan := fun cs => do
  let head := run (fun c => c.isAlphanum || c = '$' || c = '_') cs
  if head = 0 || (cs.head?.map Char.isDigit).getD true then none
  else match cs.drop head with
    | '-' :: r => some (head + 1 + run (fun c => c.isAlphanum || c = '$' || c = '_' || c = '-') r)
    | _ => none

/-- The text of a block comment after its opening, closing mark included. -/
def blockRun : List Char → Option Nat
  | '*' :: '/' :: _ => some 2
  | _ :: r => (blockRun r).map (· + 1)
  | [] => none

/-- A comment, to the end of the line or up to its closing mark. -/
def comment : Scan := fun cs =>
  match cs with
  | '/' :: '/' :: r =>
    some (2 + run (fun c => c != '\n' && c != '\r' && c != '\u2028' && c != '\u2029') r)
  | '/' :: '*' :: r => (blockRun r).map (· + 2)
  | _ => none

/-- The first line of a text that names its interpreter. -/
def hashBang : Scan := fun cs =>
  match cs with
  | '#' :: '!' :: r => some (2 + run (· != '\n') r)
  | _ => none

/-- What is left after the gaps and comments at the head; `n` bounds the number
of comments. -/
def afterGaps : Nat → List Char → List Char
  | 0, cs => cs
  | n + 1, cs =>
    let r := cs.dropWhile isGap
    match comment r with
    | some k => afterGaps n (r.drop k)
    | none => r

end Lexeme

end Retarget.Syntax
