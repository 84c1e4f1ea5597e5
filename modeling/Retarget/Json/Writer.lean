import Retarget.Json

/-!
# Writing JSON

`Json.compact` writes a value on one line, `Json.pretty` with one item or member
on each line, indented by two spaces.
-/

namespace Retarget

namespace Number

/-- A run of zeros. -/
def zeros (n : Nat) : String :=
  String.ofList (List.replicate n '0')

/-- A number as text: the shortest digits that read back, with a point; from
`1e16` up and below `1e-5` with an exponent. -/
def doubleText (b : Binary64) : String :=
  let (x, k) := b.digits
  let ds := toString x
  let point := (ds.length : Int) + k
  let body :=
    if x = 0 then "0.0"
    else if 0 ≤ k && point ≤ 16 then ds ++ zeros k.toNat ++ ".0"
    else if 0 < point && point ≤ 16 then
      String.ofList (ds.toList.take point.toNat) ++ "." ++
        String.ofList (ds.toList.drop point.toNat)
    else if -5 < point && point ≤ 0 then "0." ++ zeros (-point).toNat ++ ds
    else
      let e := point - 1
      let mantissa := match ds.toList with
        | [d] => String.singleton d
        | d :: rest => String.ofList (d :: '.' :: rest)
        | [] => ""
      mantissa ++ "e" ++ (if 0 ≤ e then "+" else "-") ++ toString e.natAbs
  if b.negative then "-" ++ body else body

/-- A number as text. -/
def text : Number → String
  | whole n => toString n
  | negative n => "-" ++ toString n
  | double b => doubleText b

end Number

namespace Json

/-- The digit of a number below sixteen. -/
def hexDigit (n : Nat) : Char :=
  if n < 10 then Char.ofNat (n + 48) else Char.ofNat (n + 87)

/-- A character inside a written string. -/
def escapeChar (c : Char) : List Char :=
  if c = '"' then ['\\', '"']
  else if c = '\\' then ['\\', '\\']
  else if c = '\n' then ['\\', 'n']
  else if c = '\r' then ['\\', 'r']
  else if c = '\t' then ['\\', 't']
  else if c.toNat = 8 then ['\\', 'b']
  else if c.toNat = 12 then ['\\', 'f']
  else if c.toNat < 32 then
    ['\\', 'u', '0', '0', hexDigit (c.toNat / 16), hexDigit (c.toNat % 16)]
  else [c]

/-- A string as it is written. -/
def quote (s : String) : String :=
  "\"" ++ String.ofList (s.toList.flatMap escapeChar) ++ "\""

mutual

/-- A value on one line. -/
def compact : Json → String
  | null => "null"
  | bool b => if b then "true" else "false"
  | number n => n.text
  | string s => quote s
  | array xs => "[" ++ compactItems xs ++ "]"
  | object ms => "\x7b" ++ compactMembers ms ++ "\x7d"

/-- Items with commas between them. -/
def compactItems : List Json → String
  | [] => ""
  | [x] => compact x
  | x :: xs => compact x ++ "," ++ compactItems xs

/-- Members with commas between them. -/
def compactMembers : List (String × Json) → String
  | [] => ""
  | [(k, v)] => quote k ++ ":" ++ compact v
  | (k, v) :: ms => quote k ++ ":" ++ compact v ++ "," ++ compactMembers ms

end

/-- A line break and an indent. -/
def newline (depth : Nat) : String :=
  "\n" ++ String.ofList (List.replicate (2 * depth) ' ')

mutual

/-- A value over several lines, starting at a given depth. -/
def prettyAt (depth : Nat) : Json → String
  | null => "null"
  | bool b => if b then "true" else "false"
  | number n => n.text
  | string s => quote s
  | array [] => "[]"
  | array xs => "[" ++ prettyItems (depth + 1) xs ++ newline depth ++ "]"
  | object [] => "\x7b\x7d"
  | object ms => "\x7b" ++ prettyMembers (depth + 1) ms ++ newline depth ++ "\x7d"

/-- Items, each on a line of its own. -/
def prettyItems (depth : Nat) : List Json → String
  | [] => ""
  | [x] => newline depth ++ prettyAt depth x
  | x :: xs => newline depth ++ prettyAt depth x ++ "," ++ prettyItems depth xs

/-- Members, each on a line of its own. -/
def prettyMembers (depth : Nat) : List (String × Json) → String
  | [] => ""
  | [(k, v)] => newline depth ++ quote k ++ ": " ++ prettyAt depth v
  | (k, v) :: ms =>
    newline depth ++ quote k ++ ": " ++ prettyAt depth v ++ "," ++ prettyMembers depth ms

end

/-- A value over several lines. -/
def pretty (j : Json) : String :=
  prettyAt 0 j

end Json

end Retarget
