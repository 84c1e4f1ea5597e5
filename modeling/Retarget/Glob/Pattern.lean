import Retarget.Text.Utf8

/-!
# Glob patterns

A glob is a list of pieces.  Alternatives and the pieces that stand for whole
directories are only short for several patterns each, so a glob is *expanded*
into flat patterns of single bytes and gaps; it matches a path when one of them
does.
-/

namespace Retarget.Glob

/-- A piece of a glob. -/
inductive Piece where
  /-- a character that stands for itself -/
  | literal (c : Char)
  /-- any byte -/
  | any
  /-- any bytes -/
  | star
  /-- any directories at the start -/
  | leading
  /-- anything in a directory at the end -/
  | trailing
  /-- any directories between two slashes -/
  | between
  /-- one byte of some ranges, or of none of them -/
  | oneOf (negated : Bool) (ranges : List (Char × Char))
  /-- one of several globs -/
  | alternatives (branches : List (List Piece))
  deriving Repr

/-- A part of a flat pattern. -/
inductive Atom where
  /-- one byte of some ranges, or of none of them -/
  | byte (negated : Bool) (ranges : List (UInt8 × UInt8))
  /-- any bytes -/
  | gap
  deriving DecidableEq, Repr

/-- A flat pattern. -/
abbrev Flat := List Atom

/-- Whether a byte belongs to some ranges, or to none of them. -/
def admits (negated : Bool) (ranges : List (UInt8 × UInt8)) (b : UInt8) : Bool :=
  negated != ranges.any fun r => r.1 ≤ b && b ≤ r.2

/-- Whether some bytes, or what is left of them behind any of them, pass a test. -/
def anyRest (test : List UInt8 → Bool) : List UInt8 → Bool
  | [] => test []
  | b :: s => test (b :: s) || anyRest test s

/-- Whether a flat pattern matches bytes. -/
def Flat.matches : Flat → List UInt8 → Bool
  | [], s => s.isEmpty
  | .byte negated ranges :: rest, s =>
    match s with
    | [] => false
    | b :: s => admits negated ranges b && Flat.matches rest s
  | .gap :: rest, s => anyRest (Flat.matches rest) s

/-- A flat pattern of one byte. -/
def exactly (b : UInt8) : Atom :=
  .byte false [(b, b)]

/-- The atom for a slash. -/
def slash : Atom :=
  exactly 0x2F

/-- The bytes of a character. -/
def bytesOf (c : Char) : List UInt8 :=
  Text.encode (String.singleton c)

/-- The byte ranges for a range of characters: its ends are taken byte by byte,
and only the innermost two bytes span a range. -/
def byteRanges (r : Char × Char) : List (UInt8 × UInt8) :=
  let low := bytesOf r.1
  let high := bytesOf r.2
  if r.1 = r.2 then low.map fun b => (b, b)
  else
    low.dropLast.map (fun b => (b, b)) ++
      (match low.getLast?, high.head? with
        | some a, some b => [(a, b)]
        | _, _ => []) ++
      high.tail.map fun b => (b, b)

/-- All ways to go on from each of some patterns. -/
def extend (heads tails : List Flat) : List Flat :=
  heads.flatMap fun h => tails.map fun t => h ++ t

mutual

/-- Whether a glob says nothing. -/
def isVoid : List Piece → Bool
  | [] => true
  | .alternatives bs :: rest => areVoid bs && isVoid rest
  | _ :: _ => false

/-- Whether all branches say nothing. -/
def areVoid : List (List Piece) → Bool
  | [] => true
  | b :: bs => isVoid b && areVoid bs

end

mutual

/-- The flat patterns of a glob. -/
def expand : List Piece → List Flat
  | [] => [[]]
  | p :: rest => extend (expandPiece p) (expand rest)

/-- The flat patterns of a piece.  Alternatives that say nothing do not count,
unless there is no other. -/
def expandPiece : Piece → List Flat
  | .literal c => [(bytesOf c).map exactly]
  | .any => [[.byte true []]]
  | .star => [[.gap]]
  | .leading => [[], [slash], [.gap, slash]]
  | .trailing => [[slash, .gap]]
  | .between => [[slash], [slash, .gap, slash]]
  | .oneOf negated ranges => [[.byte negated (ranges.flatMap byteRanges)]]
  | .alternatives bs => if areVoid bs then [[]] else expandBranches bs

/-- The flat patterns of the branches that say something. -/
def expandBranches : List (List Piece) → List Flat
  | [] => []
  | b :: bs => (if isVoid b then [] else expand b) ++ expandBranches bs

end

end Retarget.Glob

namespace Retarget

/-- A glob as a set of flat patterns. -/
structure Glob where
  patterns : List Glob.Flat
  deriving DecidableEq, Repr

namespace Glob

/-- The glob of pieces; leading directories alone stand for everything. -/
def ofPieces : List Piece → Glob
  | [.leading] => ⟨[[.gap]]⟩
  | ps => ⟨expand ps⟩

/-- Whether a glob matches a text. -/
def matchesText (g : Glob) (s : String) : Bool :=
  let bytes := Text.encode s
  g.patterns.any fun p => Flat.matches p bytes

end Glob

end Retarget
