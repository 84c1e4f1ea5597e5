/-!
# Floating point numbers

A `Binary64` is a number `± m · 2^e` of the IEEE format with 53 bits.  Rounding
and the search for the shortest decimal work on exact natural numbers.
`Binary64.digits` gives the fewest significant digits that no other number of
the format is closer to, and of these the nearest.
-/

namespace Retarget

/-- A finite number of the format: sign, significand below `2^53`, and exponent
of two from `-1074` up. -/
structure Binary64 where
  negative : Bool
  significand : Nat
  exponent : Int
  deriving DecidableEq, Repr

namespace Binary64

/-- The least exponent of the format. -/
def minExponent : Int := -1074

/-- The greatest exponent of the format. -/
def maxExponent : Int := 971

/-- Zero with a sign. -/
def zero (negative : Bool) : Binary64 :=
  ⟨negative, 0, minExponent⟩

/-- The quotient rounded to the nearest natural number, a half to the even
one. -/
def roundDiv (num den : Nat) : Nat :=
  let q := num / den
  let r := 2 * (num % den)
  if r < den then q
  else if r = den then (if q % 2 = 0 then q else q + 1)
  else q + 1

/-- A quotient times a power of two, as a quotient. -/
def scaled (num den : Nat) (e : Int) : Nat × Nat :=
  match e with
  | .ofNat n => (num * Nat.pow 2 n, den)
  | .negSucc n => (num, den * Nat.pow 2 (n + 1))

/-- The number of the format nearest to a quotient, an even significand winning
a tie; `none` if the quotient is too large. -/
def round (negative : Bool) (num den : Nat) : Option Binary64 :=
  if num = 0 then some (zero negative)
  else
    let guess : Int := (num.log2 : Int) - (den.log2 : Int) - 53
    let (n, d) := scaled num den (-guess)
    let exact := if n / d < Nat.pow 2 53 then guess else guess + 1
    let e := max exact minExponent
    let (n, d) := scaled num den (-e)
    let m := roundDiv n d
    let (m, e) := if m = Nat.pow 2 53 then (Nat.pow 2 52, e + 1) else (m, e)
    if maxExponent < e then none else some ⟨negative, m, e⟩

/-- The number as a quotient, without its sign. -/
def quotient (b : Binary64) : Nat × Nat :=
  scaled b.significand 1 b.exponent

/-- The product of two numbers; `none` if it is too large. -/
def mul (a b : Binary64) : Option Binary64 :=
  let (n, d) := a.quotient
  let (k, l) := b.quotient
  round (a.negative != b.negative) (n * k) (d * l)

/-- The quotient of two numbers, the second one not zero. -/
def div (a b : Binary64) : Option Binary64 :=
  let (n, d) := a.quotient
  let (k, l) := b.quotient
  round (a.negative != b.negative) (n * l) (d * k)

/-- The number nearest to a power of ten; `none` if that is too large. -/
def powerOfTen (n : Nat) : Option Binary64 :=
  round false (Nat.pow 10 n) 1

/-- The number of decimal digits of a natural number; `fuel` bounds them. -/
def digitCount : Nat → Nat → Nat
  | 0, _ => 0
  | fuel + 1, n => if n < 10 then 1 else digitCount fuel (n / 10) + 1

/-- The least power of ten that lifts a quotient to one or more; `fuel` bounds
it. -/
def lift : Nat → Nat → Nat → Nat
  | 0, _, _ => 0
  | fuel + 1, num, den => if den ≤ num then 0 else lift fuel (num * 10) den + 1

/-- The decimal exponent of the leading digit of a positive quotient. -/
def magnitude (num den : Nat) : Int :=
  if den ≤ num then (digitCount ((num / den).log2 + 1) (num / den) : Int) - 1
  else -(lift (den.log2 + 1) num den : Int)

/-- A quotient divided by a power of ten. -/
def overTen (num den : Nat) (k : Int) : Nat × Nat :=
  match k with
  | .ofNat n => (num, den * Nat.pow 10 n)
  | .negSucc n => (num * Nat.pow 10 (n + 1), den)

/-- The decimals of a given number of digits that read as a number, the nearest
one first: the digits as one natural number. `four` is the number in quarters
of its last place, `below` and `above` reach to the middle of its
neighbours. -/
def candidate (even : Bool) (four below above : Nat × Nat) (k : Int) : Option Nat :=
  let (n, d) := overTen four.1 four.2 k
  let down := n / d
  let hits := [down, down + 1].filter fun x =>
    let (bn, bd) := overTen below.1 below.2 k
    let (an, ad) := overTen above.1 above.2 k
    if even then bn ≤ x * bd && x * ad ≤ an else bn < x * bd && x * ad < an
  match hits with
  | [] => none
  | [x] => some x
  | x :: y :: _ =>
    let r := 2 * (n % d)
    if r < d || (r = d && x % 2 = 0) then some x else some y

/-- The first number of digits, from `n` on, with a decimal that reads as the
number: the digits and the power of ten of the last one. -/
def search (even : Bool) (four below above : Nat × Nat) (top : Int) :
    Nat → Nat → Nat × Int
  | 0, n => (0, top - n)
  | fuel + 1, n =>
    let k := top - n + 1
    match candidate even four below above k with
    | some x => (x, k)
    | none => search even four below above top fuel (n + 1)

/-- Drops the zeros at the end of a number, counting them; `fuel` bounds
them. -/
def dropZeros : Nat → Nat → Int → Nat × Int
  | 0, x, k => (x, k)
  | fuel + 1, x, k => if x ≠ 0 && x % 10 = 0 then dropZeros fuel (x / 10) (k + 1) else (x, k)

/-- The fewest digits that read as the number, of those the nearest: the digits
as one natural number and the power of ten of the last one. -/
def digits (b : Binary64) : Nat × Int :=
  if b.significand = 0 then (0, 0)
  else
    let m := b.significand
    let narrow := m = Nat.pow 2 52 && minExponent < b.exponent
    let at_ (x : Nat) : Nat × Nat := scaled x 1 (b.exponent - 2)
    let four := at_ (4 * m)
    let (n, d) := four
    let found := search (m % 2 = 0) four (at_ (4 * m - (if narrow then 1 else 2)))
      (at_ (4 * m + 2)) (magnitude n d) 17 1
    dropZeros 20 found.1 found.2

end Binary64

end Retarget
