import Retarget.Binary64
import Retarget.OrderedMap

/-!
# JSON values

Values of JSON documents.  Members of objects keep their order, and whole
numbers of 64 bits stay whole.
-/

namespace Retarget

/-- A number of a JSON document. -/
inductive Number where
  /-- a whole number from zero up, below `2^64` -/
  | whole (n : Nat)
  /-- a whole number below zero, from `-2^63` up, given without its sign -/
  | negative (n : Nat)
  /-- any other number -/
  | double (b : Binary64)
  deriving DecidableEq, Repr

/-- A JSON value. -/
inductive Json where
  | null
  | bool (b : Bool)
  | number (n : Number)
  | string (s : String)
  | array (items : List Json)
  | object (members : List (String × Json))
  deriving Repr

/-- The members of an object, in order. -/
abbrev Members := OrderedMap String Json

namespace Json

/-- The text of a string. -/
def string? : Json → Option String
  | string s => some s
  | _ => none

/-- The members of an object. -/
def members? : Json → Option Members
  | object m => some m
  | _ => none

end Json

end Retarget
