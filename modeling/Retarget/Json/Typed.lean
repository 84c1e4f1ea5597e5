import Retarget.Json.Reader

/-!
# Typed JSON documents

Readers for documents whose shape is known: strings, lists, maps of strings and
records.  A record is an object with known keys, or an array with the values of
the keys in order.  Trouble with a record as a whole (a key that is missing or
comes twice, too few values) is told at the place where the record ends.
Values under other keys are skipped, whatever they are.
-/

namespace Retarget.Json

/-! ### Skipping -/

/-- Skips the digits at the start of a text. -/
def skipDigits (cs : List Char) : List Char :=
  cs.dropWhile Char.isDigit

/-- Skips an exponent after its letter. -/
def skipExponent (cs : List Char) : Except Trouble (List Char) :=
  let cs := match cs with
    | '+' :: r => r
    | '-' :: r => r
    | _ => cs
  if startsDigit cs then .ok (skipDigits cs) else stuck .badNumber (cs.drop 1)

/-- Skips an exponent if one comes. -/
def skipScale (cs : List Char) : Except Trouble (List Char) :=
  match cs with
  | 'e' :: r => skipExponent r
  | 'E' :: r => skipExponent r
  | _ => .ok cs

/-- Skips a number after its sign. -/
def skipNumber (cs : List Char) : Except Trouble (List Char) :=
  if !startsDigit cs then stuck .badNumber (cs.drop 1)
  else if cs.head? = some '0' && startsDigit (cs.drop 1) then refuse .badNumber (cs.drop 1)
  else match skipDigits cs with
    | '.' :: r => if startsDigit r then skipScale (skipDigits r) else refuse .badNumber r
    | r => skipScale r

/-- Skips an escape after its backslash. -/
def skipEscape (cs : List Char) : Except Trouble (List Char) :=
  match cs with
  | 'u' :: r => (readHex r).map Prod.snd
  | _ => (readEscape cs).map Prod.snd

/-- Skips a string after its opening quote; `n` bounds its length. -/
def skipString : Nat → List Char → Except Trouble (List Char)
  | 0, cs => stuck .endOfString cs
  | n + 1, cs =>
    match cs with
    | [] => stuck .endOfString []
    | '"' :: r => .ok r
    | '\\' :: r => skipEscape r >>= skipString n
    | c :: r => if c.toNat < 32 then stuck .badControl (c :: r) else skipString n r

/-- Skips a key with its colon. -/
def skipKey (cs : List Char) : Except Trouble (List Char) :=
  match skip cs with
  | '"' :: r => skipString (r.length + 1) r >>= readColon
  | [] => refuse .endOfObject []
  | r => refuse .keyNoString r

/-- What stands around the value being skipped. -/
inductive Frame where
  | list
  | object
  deriving DecidableEq, Repr

mutual

/-- Skips a value that stands inside `around`; `n` bounds the steps. -/
def skipInside : Nat → List Frame → List Char → Except Trouble (List Char)
  | 0, _, cs => .ok cs
  | n + 1, around, cs =>
    match skip cs with
    | [] => refuse .endOfValue []
    | 'n' :: r => readKeyword () "ull".toList r >>= fun x => skipBehind n around true x.2
    | 't' :: r => readKeyword () "rue".toList r >>= fun x => skipBehind n around true x.2
    | 'f' :: r => readKeyword () "alse".toList r >>= fun x => skipBehind n around true x.2
    | '-' :: r => skipNumber r >>= skipBehind n around true
    | '"' :: r => skipString (r.length + 1) r >>= skipBehind n around true
    | '[' :: r => skipBehind n (.list :: around) false r
    | '\x7b' :: r => skipBehind n (.object :: around) false r
    | c :: r =>
      if c.isDigit then skipNumber (c :: r) >>= skipBehind n around true
      else refuse .noValue (c :: r)

/-- Goes on behind a value or an opening bracket, which takes no comma. -/
def skipBehind : Nat → List Frame → Bool → List Char → Except Trouble (List Char)
  | 0, _, _, cs => .ok cs
  | _ + 1, [], _, cs => .ok cs
  | n + 1, f :: around, comma, cs =>
    match skip cs, f, comma with
    | [], .list, _ => refuse .endOfList []
    | [], .object, _ => refuse .endOfObject []
    | ']' :: r, .list, _ => skipBehind n around true r
    | '\x7d' :: r, .object, _ => skipBehind n around true r
    | ',' :: r, .list, true => skipInside n (.list :: around) r
    | ',' :: r, .object, true => skipKey r >>= skipInside n (.object :: around)
    | r, .list, true => refuse .noListComma r
    | r, .object, true => refuse .noObjectComma r
    | r, .list, false => skipInside n (.list :: around) r
    | r, .object, false => skipKey r >>= skipInside n (.object :: around)

end

/-- Skips a value. -/
def skipValue (cs : List Char) : Except Trouble (List Char) :=
  skipInside (2 * cs.length + 2) [] cs

/-! ### Reading -/

/-- Reads a string. -/
def readText? (cs : List Char) : Except Trouble (String × List Char) :=
  match skip cs with
  | [] => refuse .endOfValue []
  | '"' :: r => readString r
  | r => refuseShape "a string" r

/-- Reads a value or `null`. -/
def readOptional {α : Type} (reader : List Char → Except Trouble (α × List Char))
    (cs : List Char) : Except Trouble (Option α × List Char) :=
  match skip cs with
  | 'n' :: r => readKeyword none "ull".toList r
  | r => (reader r).map fun x => (some x.1, x.2)

/-- Reads a list; `wanted` names it in messages. -/
def readListOf {α : Type} (wanted : String)
    (reader : List Char → Except Trouble (α × List Char)) (cs : List Char) :
    Except Trouble (List α × List Char) :=
  match skip cs with
  | [] => refuse .endOfValue []
  | '[' :: r => do
    let (xs, rest) ← readItems (fun xs cs => do
      let (x, rest) ← reader cs
      return (x :: xs, rest)) (r.length + 1) true [] r
    let rest ← closeArray rest
    return (xs.reverse, rest)
  | r => refuseShape wanted r

/-- Reads an object whose values are strings. -/
def readStringMap (cs : List Char) : Except Trouble (OrderedMap String String × List Char) :=
  match skip cs with
  | [] => refuse .endOfValue []
  | '\x7b' :: r => do
    let (m, rest) ← readMembers (fun m k cs => do
      let (s, rest) ← readColon cs >>= readText?
      return (OrderedMap.insert m k s, rest)) (r.length + 1) true [] r
    let rest ← closeObject rest
    return (m, rest)
  | r => refuseShape "a map" r

/-- How the values of a record are read and put together: `α` is what the
record becomes, `δ` what is known of it so far, `φ` are its fields. -/
structure RecordShape (α δ φ : Type) where
  /-- how messages name it -/
  wanted : String
  /-- its fields in order -/
  fields : List φ
  /-- the key of a field -/
  key : φ → String
  /-- nothing is known -/
  empty : δ
  /-- whether a field is known -/
  has : δ → φ → Bool
  /-- the record, or the field that is missing -/
  finish : δ → Except φ α

/-- The place where trouble with a whole object is told. -/
def objectEnd (cs : List Char) : List Char :=
  match skip cs with
  | '\x7d' :: r => r
  | r => r

/-- Reads a record. -/
def readRecord {α δ φ : Type} (shape : RecordShape α δ φ)
    (value : δ → φ → List Char → Except Trouble (δ × List Char)) (cs : List Char) :
    Except Trouble (α × List Char) :=
  let plural := shape.wanted ++ " with " ++ toString shape.fields.length ++ " elements"
  match skip cs with
  | [] => refuse .endOfValue []
  | '\x7b' :: r => do
    let (d, rest) ← readMembers (fun d k cs =>
      match shape.fields.find? fun f => shape.key f = k with
      | none => do
        let rest ← readColon cs >>= skipValue
        return (d, rest)
      | some f =>
        if shape.has d f then
          stuck (.shape ("duplicate field \x60" ++ k ++ "\x60")) (objectEnd cs)
        else readColon cs >>= value d f) (r.length + 1) true shape.empty r
    let rest ← closeObject rest
    match shape.finish d with
    | .ok a => return (a, rest)
    | .error f => stuck (.shape ("missing field \x60" ++ shape.key f ++ "\x60")) rest
  | '[' :: r => do
    let ((d, _), rest) ← readItems (fun (s : δ × List φ) cs =>
      match s.2 with
      | [] => .ok (s, cs)
      | f :: left => do
        let (d, rest) ← value s.1 f cs
        return ((d, left), rest)) shape.fields.length true (shape.empty, shape.fields) r
    match shape.finish d with
    | .ok a =>
      let rest ← closeArray rest
      return (a, rest)
    | .error f =>
      let known := shape.fields.takeWhile fun g => shape.key g ≠ shape.key f
      stuck (.shape ("invalid length " ++ toString known.length ++ ", expected " ++ plural))
        ((closeArray rest).toOption.getD rest)
  | r => refuseShape shape.wanted r

end Retarget.Json
