import Retarget.Json

/-!
# Comparing JSON values

Equality of JSON values is decided by comparing them part by part.
-/

namespace Retarget.Json

mutual

/-- Whether two values are the same. -/
def same : Json → Json → Bool
  | .null, .null => true
  | .bool a, .bool b => a = b
  | .number a, .number b => a = b
  | .string a, .string b => a = b
  | .array xs, .array ys => sameItems xs ys
  | .object xs, .object ys => sameMembers xs ys
  | _, _ => false

/-- Whether two arrays have the same items. -/
def sameItems : List Json → List Json → Bool
  | [], [] => true
  | x :: xs, y :: ys => x.same y && sameItems xs ys
  | _, _ => false

/-- Whether two objects have the same members in the same order. -/
def sameMembers : List (String × Json) → List (String × Json) → Bool
  | [], [] => true
  | (k, x) :: xs, (j, y) :: ys => decide (k = j) && x.same y && sameMembers xs ys
  | _, _ => false

end

mutual

theorem same_iff (a b : Json) : a.same b = true ↔ a = b := by
  cases a with
  | null => cases b <;> simp [same]
  | bool x => cases b <;> simp [same]
  | number x => cases b <;> simp [same]
  | string x => cases b <;> simp [same]
  | array xs =>
    cases b with
    | array ys => simp [same, sameItems_iff xs ys]
    | _ => simp [same]
  | object xs =>
    cases b with
    | object ys => simp [same, sameMembers_iff xs ys]
    | _ => simp [same]

theorem sameItems_iff (xs ys : List Json) : sameItems xs ys = true ↔ xs = ys := by
  cases xs with
  | nil => cases ys <;> simp [sameItems]
  | cons x xs =>
    cases ys with
    | nil => simp [sameItems]
    | cons y ys => simp [sameItems, same_iff x y, sameItems_iff xs ys]

theorem sameMembers_iff (xs ys : List (String × Json)) : sameMembers xs ys = true ↔ xs = ys := by
  cases xs with
  | nil => cases ys <;> simp [sameMembers]
  | cons x xs =>
    obtain ⟨k, x⟩ := x
    cases ys with
    | nil => simp [sameMembers]
    | cons y ys =>
      obtain ⟨j, y⟩ := y
      simp [sameMembers, same_iff x y, sameMembers_iff xs ys]

end

instance : DecidableEq Json :=
  fun a b => decidable_of_iff _ (same_iff a b)

example : Json.object [("a", .null), ("b", .null)] ≠ .object [("b", .null), ("a", .null)] := by
  decide

end Retarget.Json
