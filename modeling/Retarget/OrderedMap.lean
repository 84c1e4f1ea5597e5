/-!
# Maps that keep their order

An `OrderedMap` is a list of keys with values in which the first entry of a key
counts.  A new key goes to the end, a known one keeps its place, and removing a
key leaves the order of the others alone.
-/

namespace Retarget

/-- Keys with values, in the order in which the keys came. -/
abbrev OrderedMap (α β : Type) := List (α × β)

namespace OrderedMap

variable {α β : Type} [DecidableEq α]

/-- The value of a key. -/
def get? (m : OrderedMap α β) (k : α) : Option β :=
  match m with
  | [] => none
  | (a, b) :: rest => if a = k then some b else get? rest k

/-- Whether a key is there. -/
def has (m : OrderedMap α β) (k : α) : Bool :=
  (get? m k).isSome

/-- Gives a key a value. -/
def insert (m : OrderedMap α β) (k : α) (v : β) : OrderedMap α β :=
  match m with
  | [] => [(k, v)]
  | (a, b) :: rest => if a = k then (a, v) :: rest else (a, b) :: insert rest k v

/-- Removes a key. -/
def remove (m : OrderedMap α β) (k : α) : OrderedMap α β :=
  List.filter (fun x => x.1 ≠ k) m

/-- The keys in order. -/
def keys (m : OrderedMap α β) : List α :=
  List.map Prod.fst m

/-- A map from pairs, each taking effect after those before it. -/
def ofPairs (xs : List (α × β)) : OrderedMap α β :=
  xs.foldl (fun m x => insert m x.1 x.2) []

/-- Reading the key just written gives what was written. -/
theorem get?_insert_self (m : OrderedMap α β) (k : α) (v : β) :
    get? (insert m k v) k = some v := by
  induction m with
  | nil => simp [insert, get?]
  | cons x rest ih =>
    by_cases h : x.1 = k
    · simp [insert, get?, h]
    · simp [insert, get?, h, ih]

/-- Writing a key changes no other key. -/
theorem get?_insert_of_ne {m : OrderedMap α β} {k j : α} (v : β) (h : j ≠ k) :
    get? (insert m k v) j = get? m j := by
  induction m with
  | nil => simp [insert, get?, h.symm]
  | cons x rest ih =>
    by_cases hx : x.1 = k
    · have hj : ¬ k = j := fun e => h e.symm
      simp [insert, get?, hx, hj]
    · by_cases hj : x.1 = j
      · simp [insert, get?, hj, h]
      · simp [insert, get?, hx, hj, ih]

/-- Reading any key after one was written. -/
theorem get?_insert (m : OrderedMap α β) (k j : α) (v : β) :
    get? (insert m k v) j = if j = k then some v else get? m j := by
  by_cases h : j = k
  · subst h
    simp [get?_insert_self]
  · simp [h, get?_insert_of_ne v h]

/-- The keys that are there after one was written. -/
theorem has_insert (m : OrderedMap α β) (k j : α) (v : β) :
    has (insert m k v) j = (decide (j = k) || has m j) := by
  by_cases h : j = k
  · simp [has, get?_insert, h]
  · simp [has, get?_insert, h]

/-- A value that is read stands among the entries. -/
theorem mem_of_get? {m : OrderedMap α β} {k : α} {v : β} (h : get? m k = some v) :
    (k, v) ∈ m := by
  induction m with
  | nil => simp [get?] at h
  | cons x rest ih =>
    by_cases hx : x.1 = k
    · obtain rfl : x.2 = v := by simpa [get?, hx] using h
      simp [← hx]
    · exact List.mem_cons_of_mem _ (ih (by simpa [get?, hx] using h))

/-- The key of an entry has a value. -/
theorem has_of_mem {m : OrderedMap α β} {x : α × β} (h : x ∈ m) : has m x.1 = true := by
  induction m with
  | nil => simp at h
  | cons y rest ih =>
    by_cases hy : y.1 = x.1
    · simp [has, get?, hy]
    · rcases List.mem_cons.mp h with rfl | h
      · exact absurd rfl hy
      · simpa [has, get?, hy] using ih h

/-- A removed key is gone. -/
theorem get?_remove_self (m : OrderedMap α β) (k : α) : get? (remove m k) k = none := by
  induction m with
  | nil => rfl
  | cons x rest ih =>
    by_cases h : x.1 = k
    · simpa [remove, h] using ih
    · simpa [remove, h, get?] using ih

/-- Removing a key changes no other key. -/
theorem get?_remove_of_ne {m : OrderedMap α β} {k j : α} (h : j ≠ k) :
    get? (remove m k) j = get? m j := by
  induction m with
  | nil => rfl
  | cons x rest ih =>
    by_cases hx : x.1 = k
    · have hj : ¬ k = j := fun e => h e.symm
      simpa [remove, hx, get?, hj] using ih
    · by_cases hj : x.1 = j
      · simp [remove, get?, hj, h]
      · simpa [remove, hx, get?, hj] using ih

/-- A key that goes anyway need not be written. -/
theorem remove_insert_self (m : OrderedMap α β) (k : α) (v : β) :
    remove (insert m k v) k = remove m k := by
  induction m with
  | nil => simp [insert, remove]
  | cons x rest ih =>
    by_cases h : x.1 = k
    · simp [insert, remove, h]
    · simpa [insert, remove, h] using ih

/-- Writing one key and removing another can be done in either order. -/
theorem remove_insert_of_ne {m : OrderedMap α β} {k j : α} (v : β) (h : k ≠ j) :
    remove (insert m k v) j = insert (remove m j) k v := by
  induction m with
  | nil => simp [insert, remove, h]
  | cons x rest ih =>
    have ih : List.filter (fun x => decide (x.1 ≠ j)) (insert rest k v) =
      insert (List.filter (fun x => decide (x.1 ≠ j)) rest) k v := ih
    by_cases hk : x.1 = k
    · simp [insert, remove, hk, h]
    · by_cases hj : x.1 = j
      · simp only [insert, remove, hk, if_false]
        rw [List.filter_cons_of_neg (by simpa using hj), ih,
          List.filter_cons_of_neg (by simpa using hj)]
      · simp only [insert, remove, hk, if_false]
        rw [List.filter_cons_of_pos (by simpa using hj), ih,
          List.filter_cons_of_pos (by simpa using hj)]
        simp [insert, hk]

end OrderedMap

end Retarget
