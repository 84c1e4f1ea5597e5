/-!
# UTF-8

Bytes and text.  `decode?` reads bytes that are well-formed UTF-8, and
`decodeLossy` reads any bytes: each longest stretch that could have started a
character but did not becomes one replacement character.
-/

namespace Retarget.Text

/-- What stands for bytes that spell no character. -/
def replacement : Char := '\uFFFD'

/-- Whether a byte continues a character. -/
def isContinuation (b : UInt8) : Bool :=
  0x80 ≤ b && b ≤ 0xBF

/-- The bounds of the second byte after a first one, with the number of bytes
of the character; `none` if no character starts this way. -/
def lead (b : UInt8) : Option (Nat × UInt8 × UInt8) :=
  if 0xC2 ≤ b && b ≤ 0xDF then some (2, 0x80, 0xBF)
  else if b = 0xE0 then some (3, 0xA0, 0xBF)
  else if b = 0xED then some (3, 0x80, 0x9F)
  else if 0xE1 ≤ b && b ≤ 0xEF then some (3, 0x80, 0xBF)
  else if b = 0xF0 then some (4, 0x90, 0xBF)
  else if 0xF1 ≤ b && b ≤ 0xF3 then some (4, 0x80, 0xBF)
  else if b = 0xF4 then some (4, 0x80, 0x8F)
  else none

/-- The six low bits of a continuing byte. -/
def low (b : UInt8) : Nat :=
  b.toNat % 64

/-- Reads one character, or says how many bytes spell none. -/
def decodeChar (b : UInt8) (rest : List UInt8) : Except Nat (Char × List UInt8) :=
  if b < 0x80 then .ok (Char.ofNat b.toNat, rest)
  else match lead b with
    | none => .error 1
    | some (n, lo, hi) =>
      match rest with
      | c :: r =>
        if !(lo ≤ c && c ≤ hi) then .error 1
        else if n = 2 then .ok (Char.ofNat (b.toNat % 32 * 64 + low c), r)
        else match r with
          | d :: r' =>
            if !isContinuation d then .error 2
            else if n = 3 then .ok (Char.ofNat ((b.toNat % 16 * 64 + low c) * 64 + low d), r')
            else match r' with
              | e :: r'' =>
                if !isContinuation e then .error 3
                else .ok (Char.ofNat (((b.toNat % 8 * 64 + low c) * 64 + low d) * 64 + low e), r'')
              | [] => .error 3
          | [] => .error 2
      | [] => .error 1

/-- Reads at most `n` characters; bytes that spell none give the replacement,
or with `strict` nothing at all. -/
def decodeWithin (strict : Bool) : Nat → List UInt8 → Option (List Char)
  | _, [] => some []
  | 0, _ => some []
  | n + 1, b :: r =>
    match decodeChar b r with
    | .ok (c, rest) => (decodeWithin strict n rest).map (c :: ·)
    | .error k =>
      if strict then none
      else (decodeWithin strict n (r.drop (k - 1))).map (replacement :: ·)

/-- Reads well-formed UTF-8. -/
def decode? (bytes : List UInt8) : Option String :=
  (decodeWithin true bytes.length bytes).map String.ofList

/-- Reads any bytes. -/
def decodeLossy (bytes : List UInt8) : String :=
  String.ofList ((decodeWithin false bytes.length bytes).getD [])

/-- The bytes of a text. -/
def encode (s : String) : List UInt8 :=
  s.toUTF8.toList

end Retarget.Text
