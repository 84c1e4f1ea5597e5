import Retarget.Json.Writer
import Retarget.Text.Quoted

/-!
# Kinds of plain scalars

A plain scalar may look like a null, a truth value or a number.  Documents of
this library hold strings only, so the kind matters to messages, and to the
writer, who quotes a string that would look like anything else.
-/

namespace Retarget.Yaml

/-- What a plain scalar looks like. -/
inductive Kind where
  | null
  | bool (b : Bool)
  | int (n : Int)
  | float (b : Binary64)
  | string
  deriving DecidableEq, Repr

namespace Kind

/-- Whether a text is a null. -/
def isNull (s : String) : Bool :=
  s = "null" || s = "Null" || s = "NULL" || s = "~"

/-- The truth value that a text spells. -/
def bool? (s : String) : Option Bool :=
  if s = "true" || s = "True" || s = "TRUE" then some true
  else if s = "false" || s = "False" || s = "FALSE" then some false
  else none

/-- The value of a digit in bases up to sixteen. -/
def digit? (base : Nat) (c : Char) : Option Nat :=
  let v := if c.isDigit then c.toNat - 48
    else if 'a' ≤ c && c ≤ 'f' then c.toNat - 87
    else if 'A' ≤ c && c ≤ 'F' then c.toNat - 55
    else 99
  if v < base then some v else none

/-- The number that digits spell; there must be one at least. -/
def digits? (base : Nat) (cs : List Char) : Option Nat :=
  if cs.isEmpty then none
  else (cs.mapM (digit? base)).map fun ds => ds.foldl (fun n d => n * base + d) 0

/-- Splits a sign off. -/
def unsign (cs : List Char) : Bool × List Char :=
  match cs with
  | '-' :: r => (true, r)
  | '+' :: r => (false, r)
  | _ => (false, cs)

/-- Whether a text is a zero with further digits, which is no number. -/
def hasLeadingZero (cs : List Char) : Bool :=
  match (unsign cs).2 with
  | '0' :: d :: r => (d :: r).all Char.isDigit
  | _ => false

/-- The whole number that a text spells, in the base that it names. -/
def int? (s : String) : Option Int :=
  let cs := s.toList
  let (negative, body) := unsign cs
  let magnitude := match body with
    | '0' :: 'x' :: r => digits? 16 r
    | '0' :: 'o' :: r => digits? 8 r
    | '0' :: 'b' :: r => digits? 2 r
    | _ => if hasLeadingZero cs then none else digits? 10 body
  magnitude.bind fun n =>
    if negative then (if n ≤ Nat.pow 2 127 then some (-(n : Int)) else none)
    else if n < Nat.pow 2 128 then some n else none

/-- An exponent. -/
def exponent? (cs : List Char) : Option Int :=
  match cs with
  | [] => some 0
  | e :: r =>
    if e ≠ 'e' && e ≠ 'E' then none
    else
      let (negative, body) := unsign r
      (digits? 10 body).map fun n => if negative then -(n : Int) else n

/-- The double next to a significand times a power of ten; `none` if that is
too large. -/
def nearest (negative : Bool) (significand : Nat) (e : Int) : Option Binary64 :=
  let size : Int := (toString significand).length + e
  if significand = 0 || size < -400 then some (.zero negative)
  else if 400 < size then none
  else if 0 ≤ e then Binary64.round negative (significand * Nat.pow 10 e.toNat) 1
  else Binary64.round negative significand (Nat.pow 10 (-e).toNat)

/-- The double that a text spells with digits, a point and an exponent. -/
def float? (s : String) : Option Binary64 :=
  let (negative, body) := unsign s.toList
  let whole := body.takeWhile Char.isDigit
  let rest := body.dropWhile Char.isDigit
  let (fraction, tail) := match rest with
    | '.' :: r => (r.takeWhile Char.isDigit, r.dropWhile Char.isDigit)
    | _ => ([], rest)
  match digits? 10 (whole ++ fraction), exponent? tail with
  | some n, some e => nearest negative n (e - fraction.length)
  | _, _ => none

/-- Whether a text spells an infinity or no number. -/
def isSpecialFloat (s : String) : Bool :=
  [".inf", ".Inf", ".INF", "+.inf", "+.Inf", "+.INF", "-.inf", "-.Inf", "-.INF", ".nan", ".NaN",
   ".NAN"].contains s

/-- The kind of a plain scalar. -/
def of (s : String) : Kind :=
  if s = "" || isNull s then .null
  else match bool? s, int? s with
    | some b, _ => .bool b
    | none, some n => .int n
    | none, none =>
      if hasLeadingZero s.toList then .string
      else match float? s with
        | some b => .float b
        | none => .string

/-- A double in full, without an exponent. -/
def decimal (b : Binary64) : String :=
  let (x, k) := b.digits
  let ds := toString x
  let point := (ds.length : Int) + k
  let body :=
    if x = 0 then "0.0"
    else if 0 ≤ k then ds ++ Number.zeros k.toNat ++ ".0"
    else if 0 < point then
      String.ofList (ds.toList.take point.toNat) ++ "." ++ String.ofList (ds.toList.drop point.toNat)
    else "0." ++ Number.zeros (-point).toNat ++ ds
  if b.negative then "-" ++ body else body

/-- A scalar as messages name it. -/
def describe (s : String) (plain : Bool) : String :=
  if !plain then "string " ++ Text.quoted s
  else match of s with
    | .null => "unit value"
    | .bool b => "boolean \x60" ++ (if b then "true" else "false") ++ "\x60"
    | .int n => "integer \x60" ++ toString n ++ "\x60"
    | .float b => "floating point \x60" ++ decimal b ++ "\x60"
    | .string =>
      if isSpecialFloat s then
        "floating point \x60" ++ (if s.toLower = ".nan" then "NaN"
          else if s.toList.head? = some '-' then "-inf" else "inf") ++ "\x60"
      else "string " ++ Text.quoted s

/-- Whether a string would look like something else, were it plain. -/
def isAmbiguous (s : String) : Bool :=
  of s ≠ .string || isSpecialFloat s || hasLeadingZero s.toList

end Kind

end Retarget.Yaml
