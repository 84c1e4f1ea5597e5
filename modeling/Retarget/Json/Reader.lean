import Retarget.Error
import Retarget.Json.Writer
import Retarget.Text.Quoted

/-!
# Reading JSON

Readers take the rest of a text and give what they read with what is left, or
a `Trouble`: the cause and the place.  A place is told as line and column, the
column counted in bytes; some causes point behind the byte that was only looked
at.  Objects and arrays are read by `readMembers` and `readItems`, which hand
each member or item to a visitor, so that typed documents report the first
trouble they meet, whatever its kind.

Values nest at most 127 deep.
-/

namespace Retarget.Json

/-- What is wrong with a JSON text. -/
inductive Cause where
  | endOfList
  | endOfObject
  | endOfString
  | endOfValue
  | noColon
  | noListComma
  | noObjectComma
  | noKeyword
  | noValue
  | badEscape
  | badNumber
  | numberTooLarge
  | badControl
  | keyNoString
  | loneSurrogate
  | endOfEscape
  | trailingComma
  | trailingText
  | tooDeep
  /-- the text is JSON, but not of the wanted shape -/
  | shape (reason : String)
  deriving DecidableEq, Repr

/-- The wording of a cause. -/
def Cause.message : Cause → String
  | endOfList => "EOF while parsing a list"
  | endOfObject => "EOF while parsing an object"
  | endOfString => "EOF while parsing a string"
  | endOfValue => "EOF while parsing a value"
  | noColon => "expected \x60:\x60"
  | noListComma => "expected \x60,\x60 or \x60]\x60"
  | noObjectComma => "expected \x60,\x60 or \x60\x7d\x60"
  | noKeyword => "expected ident"
  | noValue => "expected value"
  | badEscape => "invalid escape"
  | badNumber => "invalid number"
  | numberTooLarge => "number out of range"
  | badControl => "control character (\\u0000-\\u001F) found while parsing a string"
  | keyNoString => "key must be a string"
  | loneSurrogate => "lone leading surrogate in hex escape"
  | endOfEscape => "unexpected end of hex escape"
  | trailingComma => "trailing comma"
  | trailingText => "trailing characters"
  | tooDeep => "recursion limit exceeded"
  | shape r => r

/-- A cause with the text that was left, and whether the next byte of it
counts as read. -/
structure Trouble where
  cause : Cause
  rest : List Char
  peeked : Bool
  deriving DecidableEq, Repr

/-- Trouble at the place that reading has reached. -/
def stuck {α : Type} (c : Cause) (rest : List Char) : Except Trouble α :=
  .error ⟨c, rest, false⟩

/-- Trouble with the byte that comes next. -/
def refuse {α : Type} (c : Cause) (rest : List Char) : Except Trouble α :=
  .error ⟨c, rest, true⟩

/-- Counts on a line and column over characters. -/
def advance (at_ : Nat × Nat) (cs : List Char) : Nat × Nat :=
  cs.foldl (fun p c => if c = '\n' then (p.1 + 1, 0) else (p.1, p.2 + c.utf8Size)) at_

/-- The wording of trouble in a text, with its line and column. -/
def complaint (text : List Char) (t : Trouble) : String :=
  let read := text.take (text.length - t.rest.length)
  let (line, column) := advance (1, 0) read
  let (line, column) := match t.peeked, t.rest with
    | true, '\n' :: _ => (line + 1, 0)
    | true, _ :: _ => (line, column + 1)
    | _, _ => (line, column)
  t.cause.message ++ " at line " ++ toString line ++ " column " ++ toString column

/-- The text without the white space at its start. -/
def skip (cs : List Char) : List Char :=
  cs.dropWhile fun c => c = ' ' || c = '\n' || c = '\t' || c = '\r'

/-! ### Numbers -/

/-- The greatest whole number that keeps its digits. -/
def wholeLimit : Nat := Nat.pow 2 64

/-- A whole number rounded to a double. -/
def toDouble (n : Nat) : Binary64 :=
  (Binary64.round false n 1).getD (.zero false)

/-- A significand times a power of ten, in one or more rounded steps; `none` if
it is too large. -/
def scaleWithin : Nat → Binary64 → Int → Option Binary64
  | 0, b, _ => some b
  | n + 1, b, e =>
    if e.natAbs ≤ 308 then
      match Binary64.powerOfTen e.natAbs with
      | none => none
      | some p => if 0 ≤ e then b.mul p else b.div p
    else if b.significand = 0 then some b
    else if 0 ≤ e then none
    else match Binary64.powerOfTen 308 with
      | none => none
      | some p => (b.div p).bind fun c => scaleWithin n c (e + 308)

/-- A significand times a power of ten.  Below `10^-20000` nothing is left. -/
def scale (significand : Nat) (e : Int) : Option Binary64 :=
  scaleWithin 100 (toDouble significand) e

/-- The digits of a significand as far as they fit, from a start; gives the
significand, the number of digits taken, and the rest. -/
def takeDigits (limit : Nat) : Nat → Nat → List Char → Nat × Nat × List Char
  | s, n, [] => (s, n, [])
  | s, n, c :: r =>
    if c.isDigit then
      let s' := s * 10 + (c.toNat - 48)
      if s' < limit then takeDigits limit s' (n + 1) r else (s, n, c :: r)
    else (s, n, c :: r)

/-- Whether a text starts with a digit. -/
def startsDigit (cs : List Char) : Bool :=
  (cs.head?.map Char.isDigit).getD false

/-- A double with a sign, or why it is none. -/
def finish (negative : Bool) (significand : Nat) (e : Int) (rest : List Char) :
    Except Trouble (Number × List Char) :=
  match scale significand e with
  | none => stuck .numberTooLarge rest
  | some b => .ok (.double { b with negative := negative }, rest)

/-- Reads an exponent after its letter. -/
def readExponent (negative : Bool) (significand : Nat) (e : Int) (cs : List Char) :
    Except Trouble (Number × List Char) :=
  let (down, cs) := match cs with
    | '+' :: r => (false, r)
    | '-' :: r => (true, r)
    | _ => (false, cs)
  match cs with
  | [] => stuck .endOfValue []
  | c :: r =>
    if !c.isDigit then stuck .badNumber r
    else
      let (x, _, rest) := takeDigits (Nat.pow 2 31) 0 0 cs
      if startsDigit rest then
        if significand ≠ 0 && !down then stuck .numberTooLarge (rest.drop 1)
        else .ok (.double (.zero negative), rest.dropWhile Char.isDigit)
      else finish negative significand (if down then e - x else e + x) rest

/-- Goes on behind the digits of a double. -/
def afterDigits (negative : Bool) (significand : Nat) (e : Int) (cs : List Char) :
    Except Trouble (Number × List Char) :=
  match cs with
  | 'e' :: r => readExponent negative significand e r
  | 'E' :: r => readExponent negative significand e r
  | _ => finish negative significand e cs

/-- Reads the digits after the point; those that do not fit count for
nothing. -/
def readFraction (negative : Bool) (significand : Nat) (e : Int) (cs : List Char) :
    Except Trouble (Number × List Char) :=
  let (s, n, rest) := takeDigits wholeLimit significand 0 cs
  if startsDigit rest then
    afterDigits negative s (e - n) (rest.dropWhile Char.isDigit)
  else if n = 0 then
    match rest with
    | [] => refuse .endOfValue []
    | _ => refuse .badNumber rest
  else afterDigits negative s (e - n) rest

/-- A whole number with its sign; minus zero and what is too small are
doubles. -/
def ofWhole (negative : Bool) (n : Nat) : Number :=
  if !negative then .whole n
  else if n = 0 || Nat.pow 2 63 < n then .double { toDouble n with negative := true }
  else .negative n

/-- Reads a number after its sign. -/
def readNumber (negative : Bool) (cs : List Char) : Except Trouble (Number × List Char) :=
  match cs with
  | [] => stuck .badNumber []
  | c :: r =>
    if !c.isDigit then stuck .badNumber r
    else if c = '0' && startsDigit r then refuse .badNumber r
    else
      let (s, _, rest) := takeDigits wholeLimit 0 0 cs
      let more := rest.takeWhile Char.isDigit
      let rest := rest.dropWhile Char.isDigit
      match rest with
      | '.' :: t => readFraction negative s more.length t
      | 'e' :: t => readExponent negative s more.length t
      | 'E' :: t => readExponent negative s more.length t
      | _ =>
        if more = [] then .ok (ofWhole negative s, rest)
        else finish negative s more.length rest

/-! ### Strings -/

/-- The value of a hexadecimal digit. -/
def hexValue (c : Char) : Option Nat :=
  if c.isDigit then some (c.toNat - 48)
  else if 'a' ≤ c && c ≤ 'f' then some (c.toNat - 87)
  else if 'A' ≤ c && c ≤ 'F' then some (c.toNat - 55)
  else none

/-- Reads four hexadecimal digits. -/
def readHex (cs : List Char) : Except Trouble (Nat × List Char) :=
  match cs with
  | a :: b :: c :: d :: r =>
    match hexValue a, hexValue b, hexValue c, hexValue d with
    | some a, some b, some c, some d => .ok (((a * 16 + b) * 16 + c) * 16 + d, r)
    | _, _, _, _ => stuck .badEscape r
  | _ => stuck .endOfString []

/-- Reads a character given by its code, of which a large one takes two. -/
def readCode (cs : List Char) : Except Trouble (Char × List Char) := do
  let (n, r) ← readHex cs
  if 0xDC00 ≤ n && n ≤ 0xDFFF then stuck .loneSurrogate r
  else if n < 0xD800 || 0xDBFF < n then .ok (Char.ofNat n, r)
  else match r with
    | [] => stuck .endOfString []
    | '\\' :: r =>
      match r with
      | [] => stuck .endOfString []
      | 'u' :: r => do
        let (m, r) ← readHex r
        if m < 0xDC00 || 0xDFFF < m then stuck .loneSurrogate r
        else .ok (Char.ofNat (0x10000 + (n - 0xD800) * 0x400 + (m - 0xDC00)), r)
      | _ :: r => stuck .endOfEscape r
    | _ :: r => stuck .endOfEscape r

/-- Reads an escape after its backslash. -/
def readEscape (cs : List Char) : Except Trouble (Char × List Char) :=
  match cs with
  | [] => stuck .endOfString []
  | 'u' :: r => readCode r
  | c :: r =>
    match c with
    | '"' => .ok ('"', r)
    | '\\' => .ok ('\\', r)
    | '/' => .ok ('/', r)
    | 'b' => .ok ('\x08', r)
    | 'f' => .ok ('\x0c', r)
    | 'n' => .ok ('\n', r)
    | 'r' => .ok ('\r', r)
    | 't' => .ok ('\t', r)
    | _ => stuck .badEscape r

/-- Reads a string after its opening quote; `n` bounds its length. -/
def readChars : Nat → List Char → Except Trouble (List Char × List Char)
  | 0, cs => stuck .endOfString cs
  | n + 1, cs =>
    match cs with
    | [] => stuck .endOfString []
    | '"' :: r => .ok ([], r)
    | '\\' :: r => do
      let (c, rest) ← readEscape r
      let (s, rest) ← readChars n rest
      return (c :: s, rest)
    | c :: r =>
      if c.toNat < 32 then stuck .badControl r
      else do
        let (s, rest) ← readChars n r
        return (c :: s, rest)

/-- Reads a string after its opening quote. -/
def readString (cs : List Char) : Except Trouble (String × List Char) := do
  let (s, rest) ← readChars (cs.length + 1) cs
  return (String.ofList s, rest)

/-! ### Arrays and objects -/

/-- Reads the rest of a keyword. -/
def readKeyword {α : Type} (v : α) : List Char → List Char → Except Trouble (α × List Char)
  | [], cs => .ok (v, cs)
  | _ :: _, [] => stuck .endOfValue []
  | k :: ks, c :: r => if c = k then readKeyword v ks r else stuck .noKeyword r

/-- Reads items after the opening bracket, up to the closing one, which stays.
A visitor takes each item; after `n` of them reading stops. -/
def readItems {σ : Type} (visit : σ → List Char → Except Trouble (σ × List Char)) :
    Nat → Bool → σ → List Char → Except Trouble (σ × List Char)
  | 0, _, s, cs => .ok (s, cs)
  | n + 1, first, s, cs =>
    match skip cs with
    | [] => refuse .endOfList []
    | ']' :: r => .ok (s, ']' :: r)
    | ',' :: r =>
      if first then do
        let (s, rest) ← visit s (',' :: r)
        readItems visit n false s rest
      else match skip r with
        | [] => refuse .endOfValue []
        | ']' :: r => refuse .trailingComma (']' :: r)
        | r => do
          let (s, rest) ← visit s r
          readItems visit n false s rest
    | r =>
      if first then do
        let (s, rest) ← visit s r
        readItems visit n false s rest
      else refuse .noListComma r

/-- Reads the bracket that closes an array. -/
def closeArray (cs : List Char) : Except Trouble (List Char) :=
  match skip cs with
  | ']' :: r => .ok r
  | ',' :: r =>
    match skip r with
    | ']' :: r => refuse .trailingComma (']' :: r)
    | r => refuse .trailingText r
  | [] => refuse .endOfList []
  | r => refuse .trailingText r

/-- Reads the colon after a key. -/
def readColon (cs : List Char) : Except Trouble (List Char) :=
  match skip cs with
  | ':' :: r => .ok r
  | [] => refuse .endOfObject []
  | r => refuse .noColon r

/-- Reads a key and hands it to a visitor, which goes on at the colon. -/
def readMember {σ : Type} (visit : σ → String → List Char → Except Trouble (σ × List Char))
    (s : σ) (cs : List Char) : Except Trouble (σ × List Char) := do
  let (k, rest) ← readString (cs.drop 1)
  visit s k rest

/-- Reads members after the opening brace, up to the closing one, which stays.
A visitor takes each key and reads on from the colon; `n` bounds their
number. -/
def readMembers {σ : Type}
    (visit : σ → String → List Char → Except Trouble (σ × List Char)) :
    Nat → Bool → σ → List Char → Except Trouble (σ × List Char)
  | 0, _, s, cs => .ok (s, cs)
  | n + 1, first, s, cs =>
    match skip cs with
    | [] => refuse .endOfObject []
    | '\x7d' :: r => .ok (s, '\x7d' :: r)
    | '"' :: r =>
      if first then do
        let (s, rest) ← readMember visit s ('"' :: r)
        readMembers visit n false s rest
      else refuse .noObjectComma ('"' :: r)
    | ',' :: r =>
      if first then refuse .keyNoString (',' :: r)
      else match skip r with
        | [] => refuse .endOfValue []
        | '"' :: r => do
          let (s, rest) ← readMember visit s ('"' :: r)
          readMembers visit n false s rest
        | '\x7d' :: r => refuse .trailingComma ('\x7d' :: r)
        | r => refuse .keyNoString r
    | r => if first then refuse .keyNoString r else refuse .noObjectComma r

/-- Reads the brace that closes an object. -/
def closeObject (cs : List Char) : Except Trouble (List Char) :=
  match skip cs with
  | '\x7d' :: r => .ok r
  | ',' :: r => refuse .trailingComma (',' :: r)
  | [] => refuse .endOfObject []
  | r => refuse .trailingText r

/-! ### Values -/

/-- How deep values nest. -/
def depthLimit : Nat := 128

/-- Reads a value that may hold values nested `depth` deep. -/
def readValue : Nat → List Char → Except Trouble (Json × List Char)
  | 0, cs => stuck .tooDeep cs
  | depth + 1, cs =>
    match skip cs with
    | [] => refuse .endOfValue []
    | 'n' :: r => readKeyword .null "ull".toList r
    | 't' :: r => readKeyword (.bool true) "rue".toList r
    | 'f' :: r => readKeyword (.bool false) "alse".toList r
    | '-' :: r => do
      let (x, rest) ← readNumber true r
      return (.number x, rest)
    | '"' :: r => do
      let (s, rest) ← readString r
      return (.string s, rest)
    | '[' :: r =>
      if depth = 0 then refuse .tooDeep ('[' :: r)
      else do
        let (xs, rest) ← readItems (fun xs cs => do
          let (x, rest) ← readValue depth cs
          return (x :: xs, rest)) (r.length + 1) true [] r
        let rest ← closeArray rest
        return (.array xs.reverse, rest)
    | '\x7b' :: r =>
      if depth = 0 then refuse .tooDeep ('\x7b' :: r)
      else do
        let (ms, rest) ← readMembers (fun ms k cs => do
          let cs ← readColon cs
          let (x, rest) ← readValue depth cs
          return (OrderedMap.insert ms k x, rest)) (r.length + 1) true [] r
        let rest ← closeObject rest
        return (.object ms, rest)
    | c :: r =>
      if c.isDigit then do
        let (x, rest) ← readNumber false (c :: r)
        return (.number x, rest)
      else refuse .noValue (c :: r)

/-- A value as messages about its shape name it. -/
def shapeName : Json → String
  | null => "null"
  | bool b => "boolean \x60" ++ (if b then "true" else "false") ++ "\x60"
  | number (.double b) => "floating point \x60" ++ Number.doubleText b ++ "\x60"
  | number n => "integer \x60" ++ n.text ++ "\x60"
  | string s => "string " ++ Text.quoted s
  | array _ => "sequence"
  | object _ => "map"

/-- What to say about a value of another shape than wanted. -/
def unexpected (v : Json) (wanted : String) : String :=
  "invalid type: " ++ shapeName v ++ ", expected " ++ wanted

/-- Refuses the value that comes next because of its shape.  A scalar is read
for the message; of an array or object only the bracket is seen. -/
def refuseShape {α : Type} (wanted : String) (cs : List Char) : Except Trouble α :=
  match skip cs with
  | '[' :: r => stuck (.shape (unexpected (.array []) wanted)) ('[' :: r)
  | '\x7b' :: r => stuck (.shape (unexpected (.object []) wanted)) ('\x7b' :: r)
  | r =>
    match readValue 1 r with
    | .error t => .error t
    | .ok (v, rest) => stuck (.shape (unexpected v wanted)) rest

/-- Reads an object. -/
def readObject (cs : List Char) : Except Trouble (Members × List Char) :=
  match skip cs with
  | '\x7b' :: r =>
    match readValue depthLimit ('\x7b' :: r) with
    | .error t => .error t
    | .ok (.object m, rest) => .ok (m, rest)
    | .ok (v, rest) => stuck (.shape (unexpected v "a map")) rest
  | [] => refuse .endOfValue []
  | r => refuseShape "a map" r

/-- Checks that nothing follows. -/
def readEnd {α : Type} (r : α × List Char) : Except Trouble α :=
  match skip r.2 with
  | [] => .ok r.1
  | rest => refuse .trailingText rest

/-- Reads a whole text with a reader. -/
def readText {α : Type} (reader : List Char → Except Trouble (α × List Char))
    (text : String) : Except String α :=
  let cs := text.toList
  match reader cs >>= readEnd with
  | .ok v => .ok v
  | .error t => .error (complaint cs t)

/-- The value that a text holds. -/
def ofText (text : String) : Except Failure Json :=
  match readText (readValue depthLimit) text with
  | .ok v => .ok v
  | .error m => .error (.json m)

/-- The object that a text holds. -/
def membersOfText (text : String) : Except Failure Members :=
  match readText readObject text with
  | .ok m => .ok m
  | .error m => .error (.json m)

end Retarget.Json
