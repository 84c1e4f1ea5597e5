/-!
# Replacing parts of a text

`replaceAll` puts a text in the place of every occurrence of a pattern, from the
left, so that occurrences never overlap.
-/

namespace Retarget.Text

/-- Replaces the occurrences of a pattern; `pending` characters belong to the
occurrence that was replaced last. -/
def replaceFrom (pattern replacement : List Char) : Nat → List Char → List Char
  | _, [] => []
  | pending + 1, _ :: r => replaceFrom pattern replacement pending r
  | 0, c :: r =>
    if pattern.isPrefixOf (c :: r) then
      replacement ++ replaceFrom pattern replacement (pattern.length - 1) r
    else c :: replaceFrom pattern replacement 0 r

/-- Replaces the occurrences of a pattern that is not empty. -/
def replaceAll (s pattern replacement : String) : String :=
  String.ofList (replaceFrom pattern.toList replacement.toList 0 s.toList)

/-- Without an occurrence nothing changes. -/
theorem replaceFrom_eq_self {pattern replacement cs : List Char}
    (h : ∀ t, t ≠ [] → t <:+ cs → pattern.isPrefixOf t = false) :
    replaceFrom pattern replacement 0 cs = cs := by
  induction cs with
  | nil => rfl
  | cons c r ih =>
    have hc : pattern.isPrefixOf (c :: r) = false := h _ (by simp) (List.suffix_refl _)
    have hr := ih fun t ht hs => h t ht (hs.trans (List.suffix_cons c r))
    simp [replaceFrom, hc, hr]

end Retarget.Text
