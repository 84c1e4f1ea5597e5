import Retarget.Text.Utf8

/-!
# Escapes in printed text

A backslash and what follows it can stand for one byte.  An `Escape.Dialect`
says which such spellings there are.
-/

namespace Retarget.Shell.Escape

/-- Which escapes there are: whether octal digits follow a zero, and whether
hexadecimal digits follow an `x`. -/
structure Dialect where
  zeroFirst : Bool
  hexadecimal : Bool

/-- The byte that a letter stands for. -/
def named : Char → Option UInt8
  | 'a' => some 7
  | 'b' => some 8
  | 'f' => some 12
  | 'n' => some 10
  | 'r' => some 13
  | 't' => some 9
  | 'v' => some 11
  | '\\' => some 92
  | _ => none

/-- The value of a digit, in any base up to sixteen. -/
def digit? (c : Char) : Option Nat :=
  if c.isDigit then some (c.toNat - 48)
  else if 'a' ≤ c && c ≤ 'f' then some (c.toNat - 87)
  else if 'A' ≤ c && c ≤ 'F' then some (c.toNat - 55)
  else none

/-- Whether a character is a digit in a base. -/
def isDigitIn (base : Nat) (c : Char) : Bool :=
  match digit? c with
  | some n => n < base
  | none => false

/-- The number that at most so many leading digits spell, with the rest; none
if there is no digit. -/
def number? (base most : Nat) (cs : List Char) : Option (Nat × List Char) :=
  let ds := (cs.take most).takeWhile (isDigitIn base)
  if ds = [] then none
  else some (ds.foldl (fun n c => n * base + (digit? c).getD 0) 0, cs.drop ds.length)

/-- What a backslash before the given characters stands for, with the rest. -/
def read (k : Dialect) (cs : List Char) : List UInt8 × List Char :=
  match cs with
  | [] => ([92], [])
  | c :: rest =>
    match named c with
    | some b => ([b], rest)
    | none =>
      let octal := if k.zeroFirst then
          if c = '0' then some ((number? 8 3 rest).getD (0, rest)) else none
        else number? 8 3 cs
      let other := if k.hexadecimal && c = 'x' then number? 16 2 rest else none
      match octal <|> other with
      | some (n, rest) => ([UInt8.ofNat n], rest)
      | none => (92 :: Text.encode (String.singleton c), rest)

/-- The bytes of a text with escapes, read in at most `n` pieces; `\c` ends
it.  Says also whether it went on to the end. -/
def expandWithin (k : Dialect) : Nat → List Char → List UInt8 × Bool
  | 0, _ => ([], true)
  | _, [] => ([], true)
  | n + 1, c :: rest =>
    if c ≠ '\\' then
      let (bs, all) := expandWithin k n rest
      (Text.encode (String.singleton c) ++ bs, all)
    else if rest.head? = some 'c' then ([], false)
    else
      let (b, rest) := read k rest
      let (bs, all) := expandWithin k n rest
      (b ++ bs, all)

/-- The bytes of a text with escapes, and whether it went on to the end. -/
def expand (k : Dialect) (cs : List Char) : List UInt8 × Bool :=
  expandWithin k cs.length cs

end Retarget.Shell.Escape
