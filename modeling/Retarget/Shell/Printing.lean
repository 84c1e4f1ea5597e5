import Retarget.Shell.Escape

/-!
# Printing by a format

`Printing.run` fills arguments into a format.  The format is used again as long
as arguments are left, and missing arguments are empty.
-/

namespace Retarget.Shell.Printing

/-- One part of a format. -/
inductive Part where
  /-- bytes that stand for themselves -/
  | bytes (bs : List UInt8)
  /-- an argument, padded on the left or the right -/
  | argument (left zero : Bool) (width : Nat) (precision : Option Nat) (kind : Char)

/-- The number that leading digits spell, with the rest. -/
def readNumber (cs : List Char) : Nat × List Char :=
  (Escape.number? 10 cs.length cs).getD (0, cs)

/-- Reads what stands after a percent sign. -/
def readArgument (cs : List Char) : Part × List Char :=
  let flags := cs.takeWhile fun c => c = '-' || c = '0'
  let (width, rest) := readNumber (cs.drop flags.length)
  let (precision, rest) := match rest with
    | '.' :: r => let (n, r) := readNumber r; (some n, r)
    | r => (none, r)
  match rest with
  | [] => (.bytes [37], [])
  | '%' :: r => (.bytes [37], r)
  | k :: r => (.argument (flags.contains '-') (flags.contains '0') width precision k, r)

/-- Reads a format in at most `n` parts. -/
def readParts (k : Escape.Dialect) : Nat → List Char → List Part
  | 0, _ => []
  | _, [] => []
  | n + 1, '%' :: rest =>
    let (p, rest) := readArgument rest
    p :: readParts k n rest
  | n + 1, '\\' :: rest =>
    let (b, rest) := Escape.read k rest
    .bytes b :: readParts k n rest
  | n + 1, c :: rest => .bytes (Text.encode (String.singleton c)) :: readParts k n rest

/-- Pads bytes to a width. -/
def pad (left : Bool) (fill : UInt8) (width : Nat) (bs : List UInt8) : List UInt8 :=
  let more := List.replicate (width - bs.length) fill
  if left then bs ++ more else more ++ bs

/-- The number that an argument spells; an empty one is zero. -/
def number? (s : String) : Option Int :=
  if s = "" then some 0
  else match s.toList with
    | '+' :: rest => (String.ofList rest).toNat?.map Int.ofNat
    | '"' :: c :: _ => some c.toNat
    | '\'' :: c :: _ => some c.toNat
    | _ => s.toInt?

/-- Prints one argument; says also whether it was well-formed. -/
def showArgument (left zero : Bool) (width : Nat) (precision : Option Nat) (kind : Char)
    (s : String) : List UInt8 × Bool :=
  match kind with
  | 's' =>
    let bs := Text.encode s
    (pad left 32 width ((precision.map bs.take).getD bs), true)
  | 'b' => (pad left 32 width (Escape.expand ⟨true, false⟩ s.toList).1, true)
  | 'c' => (pad left 32 width ((Text.encode s).take 1), true)
  | _ =>
    let n := number? s
    let value := n.getD 0
    let digits := match kind with
      | 'x' => Nat.toDigits 16 value.toNat
      | 'X' => (Nat.toDigits 16 value.toNat).map Char.toUpper
      | 'o' => Nat.toDigits 8 value.toNat
      | _ => (toString value).toList
    (pad left (if zero && !left then 48 else 32) width (Text.encode (String.ofList digits)),
      n.isSome)

/-- Goes once through a format.  Gives the bytes, the arguments left and those
that were not well-formed. -/
def pass : List Part → List String → List UInt8 × List String × List String
  | [], args => ([], args, [])
  | .bytes bs :: ps, args =>
    let (out, rest, bad) := pass ps args
    (bs ++ out, rest, bad)
  | .argument left zero width precision kind :: ps, args =>
    let arg := args.headD ""
    let (bs, ok) := showArgument left zero width precision kind arg
    let (out, rest, bad) := pass ps args.tail
    (bs ++ out, rest, if ok then bad else arg :: bad)

/-- Goes through a format at most `n` times, as long as arguments are left. -/
def passes (ps : List Part) : Nat → List String → List UInt8 × List String
  | 0, _ => ([], [])
  | n + 1, args =>
    let (out, rest, bad) := pass ps args
    if rest = [] || rest.length = args.length then (out, bad)
    else
      let (more, worse) := passes ps n rest
      (out ++ more, bad ++ worse)

/-- Fills arguments into a format; gives the bytes and the arguments that were
no numbers where a number was due. -/
def run (k : Escape.Dialect) (format : String) (args : List String) :
    List UInt8 × List String :=
  passes (readParts k format.length format.toList) (args.length + 1) args

end Retarget.Shell.Printing
