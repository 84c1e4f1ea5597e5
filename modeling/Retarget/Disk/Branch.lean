import Retarget.Disk

/-!
# Folders as directories of their own

`Disk.branch` takes what is below a folder for a directory, and `Disk.graft`
puts such a directory back.
-/

namespace Retarget.Disk

/-- Whether names lead below a folder. -/
def isBelow (names k : List String) : Bool :=
  names.isPrefixOf k && names.length < k.length

/-- What is below a folder. -/
def branch (d : Disk) (names : List String) : Disk :=
  ⟨d.entries.filterMap fun x =>
    if isBelow names x.1 then some (x.1.drop names.length, x.2) else none⟩

/-- The directory with something else below a folder. -/
def graft (d : Disk) (names : List String) (below : Disk) : Disk :=
  ⟨List.filter (fun x => !isBelow names x.1) d.entries ++
    below.entries.map fun x => (names ++ x.1, x.2)⟩

/-- Names that go on behind a folder lead below it. -/
theorem isBelow_append {names k : List String} (h : k ≠ []) : isBelow names (names ++ k) := by
  have := List.length_pos_iff.mpr h
  simp [isBelow, this]

/-- The branch that was grafted is found again. -/
theorem branch_graft (d : Disk) (names : List String) (below : Disk)
    (h : ∀ x ∈ below.entries, x.1 ≠ []) : (d.graft names below).branch names = below := by
  have outside : (List.filter (fun x => !isBelow names x.1) d.entries).filterMap (fun x =>
      if isBelow names x.1 then some (x.1.drop names.length, x.2) else none) = [] := by
    rw [List.filterMap_eq_nil_iff]
    intro x hx
    have hx := (List.mem_filter.mp hx).2
    simp only [Bool.not_eq_true'] at hx
    simp [hx]
  have inside : ∀ xs : OrderedMap (List String) Entry, (∀ x ∈ xs, x.1 ≠ []) →
      (xs.map fun x => (names ++ x.1, x.2)).filterMap (fun x =>
        if isBelow names x.1 then some (x.1.drop names.length, x.2) else none) = xs := by
    intro xs
    induction xs with
    | nil => simp
    | cons x xs ih =>
      intro hxs
      have hx : isBelow names (names ++ x.1) = true :=
        isBelow_append (hxs x (List.mem_cons_self ..))
      have rest := ih fun y hy => hxs y (List.mem_cons_of_mem _ hy)
      simp [hx, rest]
  simp only [branch, graft, List.filterMap_append, outside, inside _ h, List.nil_append]

end Retarget.Disk
