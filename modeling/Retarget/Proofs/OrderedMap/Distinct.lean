import Mathlib.Data.List.Nodup
import Retarget.OrderedMap

/-!
# Maps whose keys differ

Where no key stands twice a map is its entries: an entry is what its key leads to,
and writing a known key changes its entry in place.
-/

namespace Retarget.OrderedMap

variable {α β : Type} [DecidableEq α] {m : OrderedMap α β} {k : α} {v : β}

/-- The keys are what has a value. -/
theorem has_iff_mem_keys : has m k = true ↔ k ∈ m.keys := by
  constructor
  · intro hk
    obtain ⟨v, hv⟩ := Option.isSome_iff_exists.mp hk
    exact List.mem_map_of_mem (mem_of_get? hv)
  · intro hk
    obtain ⟨x, hx, rfl⟩ := List.mem_map.mp hk
    exact has_of_mem hx

/-- An entry is what its key leads to. -/
theorem get?_of_mem (hm : m.keys.Nodup) (h : (k, v) ∈ m) : get? m k = some v := by
  induction m with
  | nil => cases h
  | cons x rest ih =>
    obtain ⟨hx, hrest⟩ := List.nodup_cons.mp hm
    rcases List.mem_cons.mp h with rfl | h
    · simp [get?]
    · have hne : x.1 ≠ k := fun e => hx (e ▸ List.mem_map_of_mem h)
      simpa [get?, hne] using ih hrest h

/-- An entry of a map with a key written is the new one or was there. -/
theorem mem_of_mem_insert {x : α × β} (h : x ∈ insert m k v) : x = (k, v) ∨ x ∈ m := by
  induction m with
  | nil => exact .inl (List.mem_singleton.mp h)
  | cons y rest ih =>
    by_cases hy : y.1 = k
    · simp only [insert, hy, if_true, List.mem_cons] at h
      exact h.imp_right (List.mem_cons_of_mem _)
    · simp only [insert, hy, if_false, List.mem_cons] at h
      rcases h with rfl | h
      · exact .inr List.mem_cons_self
      · exact (ih h).imp_right (List.mem_cons_of_mem _)

/-- Writing keeps keys different. -/
theorem nodup_keys_insert (hm : m.keys.Nodup) (k : α) (v : β) : (insert m k v).keys.Nodup := by
  have keys_insert (m : OrderedMap α β) :
      (insert m k v).keys = if k ∈ m.keys then m.keys else m.keys ++ [k] := by
    induction m with
    | nil => rfl
    | cons x rest ih =>
      by_cases hx : x.1 = k
      · simp [insert, keys, hx]
      · have hne : k ≠ x.1 := Ne.symm hx
        have ih : List.map Prod.fst (insert rest k v) =
            if k ∈ List.map Prod.fst rest then List.map Prod.fst rest
            else List.map Prod.fst rest ++ [k] := ih
        simp only [insert, keys, hx, if_false, List.map_cons, ih, List.mem_cons, hne, false_or]
        split
        · rfl
        · rfl
  rw [keys_insert]
  split
  · exact hm
  · next hk => exact List.nodup_append.mpr ⟨hm, List.nodup_singleton k, by
      rintro a ha b hb rfl
      exact hk (by rwa [← List.mem_singleton.mp hb])⟩

/-- An entry of a map with a key written is the new one or was there under another key. -/
theorem mem_insert_iff {x : α × β} (hm : m.keys.Nodup) :
    x ∈ insert m k v ↔ x = (k, v) ∨ x ∈ m ∧ x.1 ≠ k := by
  have hentry {l : OrderedMap α β} (hl : l.keys.Nodup) : x ∈ l ↔ get? l x.1 = some x.2 :=
    ⟨get?_of_mem hl, mem_of_get?⟩
  rw [hentry (nodup_keys_insert hm k v), hentry hm, get?_insert]
  by_cases hx : x.1 = k
  · rw [if_pos hx]
    simp [Prod.ext_iff, hx, eq_comm]
  · rw [if_neg hx]
    simp [Prod.ext_iff, hx]

/-- Maps that lead every key to the same value have the same entries. -/
theorem perm_of_get? {l : OrderedMap α β} (hm : m.keys.Nodup) (hl : l.keys.Nodup)
    (h : ∀ k, get? m k = get? l k) : m.Perm l := by
  refine (List.perm_ext_iff_of_nodup (List.Nodup.of_map Prod.fst hm)
    (List.Nodup.of_map Prod.fst hl)).mpr fun x => ?_
  constructor
  · intro hx
    exact mem_of_get? (by rw [← h, get?_of_mem (k := x.1) (v := x.2) hm hx])
  · intro hx
    exact mem_of_get? (by rw [h, get?_of_mem (k := x.1) (v := x.2) hl hx])

/-- Writing a known key changes its entry in place. -/
theorem insert_eq_map (hm : m.keys.Nodup) (h : k ∈ m.keys) (v : β) :
    insert m k v = m.map fun x => if x.1 = k then (k, v) else x := by
  induction m with
  | nil => cases h
  | cons x rest ih =>
    obtain ⟨hx, hrest⟩ := List.nodup_cons.mp hm
    by_cases hk : x.1 = k
    · have hsame : ∀ y ∈ rest, (if y.1 = k then (k, v) else y) = y := by
        intro y hy
        have hne : y.1 ≠ k := fun e => hx (by rw [hk, ← e]; exact List.mem_map_of_mem hy)
        simp [hne]
      rw [List.map_cons, List.map_congr_left hsame, List.map_id']
      simp [insert, hk]
    · have hmem : k ∈ keys rest := by
        rcases List.mem_cons.mp h with rfl | h
        · exact absurd rfl hk
        · exact h
      simp [insert, hk, ih hrest hmem]

/-- A new key goes to the end. -/
theorem insert_of_not_mem (h : k ∉ m.keys) (v : β) : insert m k v = m ++ [(k, v)] := by
  induction m with
  | nil => rfl
  | cons x rest ih =>
    obtain ⟨hx, hrest⟩ : k ≠ x.1 ∧ k ∉ keys rest := by simpa [keys] using h
    simp [insert, hx.symm, ih hrest]

/-- Writing what is there changes nothing. -/
theorem insert_of_get? (h : get? m k = some v) : insert m k v = m := by
  induction m with
  | nil => cases h
  | cons x rest ih =>
    by_cases hx : x.1 = k
    · obtain rfl : x.2 = v := by simpa [get?, hx] using h
      simp only [insert, hx, if_true]
      rw [← hx]
    · simp only [insert, hx, if_false]
      rw [ih (by simpa [get?, hx] using h)]

/-- Of two writes of one key the later one counts. -/
theorem insert_insert (m : OrderedMap α β) (k : α) (a b : β) :
    insert (insert m k a) k b = insert m k b := by
  induction m with
  | nil => simp [insert]
  | cons x rest ih =>
    by_cases hk : x.1 = k
    · simp [insert, hk]
    · simp [insert, hk, ih]

omit [DecidableEq α] in
/-- Changing values leaves the keys alone. -/
theorem keys_map (m : OrderedMap α β) (f : α × β → β) :
    keys (m.map fun x => (x.1, f x)) = m.keys := by
  simp [keys, List.map_map, Function.comp_def]

omit [DecidableEq α] in
/-- What is made of entries, with their keys in it, keeps the order of the keys that are left. -/
theorem map_filterMap_sublist {γ : Type} (m : OrderedMap α β) {f : α × β → Option γ}
    {key : γ → α} (hf : ∀ x y, f x = some y → key y = x.1) :
    ((List.filterMap f m).map key).Sublist m.keys := by
  induction m with
  | nil => exact .slnil
  | cons x rest ih =>
    rw [List.filterMap_cons]
    cases hx : f x with
    | none => exact ih.cons _
    | some y =>
      have hkey := hf x y hx
      simp only [keys, List.map_cons, hkey]
      exact ih.cons_cons _

omit [DecidableEq α] in
/-- Dropping entries and changing values keeps the order of the keys that are left. -/
theorem keys_filterMap_sublist (m : OrderedMap α β) {f : α × β → Option (α × β)}
    (hf : ∀ x y, f x = some y → y.1 = x.1) :
    (keys (List.filterMap f m)).Sublist m.keys :=
  m.map_filterMap_sublist hf

end Retarget.OrderedMap
