import Retarget.Proofs.OrderedMap.Distinct

/-!
# Changing entries in place

`OrderedMap.adjust` changes the entry of one key, or drops it.  Writing a known key and
removing a key are such changes, and changing the keys of a map one after the other is
changing all of its entries at once.
-/

namespace Retarget.OrderedMap

variable {α β : Type} {m : OrderedMap α β} {k : α} {f g : α × β → Option (α × β)}

/-- A change to entries that leaves their keys alone. -/
def KeepsKeys (f : α × β → Option (α × β)) : Prop :=
  ∀ x y, f x = some y → y.1 = x.1

theorem KeepsKeys.nodup (hf : KeepsKeys f) (hm : m.keys.Nodup) :
    (keys (List.filterMap f m)).Nodup :=
  hm.sublist (keys_filterMap_sublist m hf)

variable [DecidableEq α]

/-- What a key leads to after the entries were changed. -/
theorem get?_filterMap (hf : KeepsKeys f) (hm : m.keys.Nodup) (k : α) :
    get? (List.filterMap f m) k = (get? m k).bind fun v => (f (k, v)).map Prod.snd := by
  induction m with
  | nil => rfl
  | cons x rest ih =>
    obtain ⟨hx, hrest⟩ := List.nodup_cons.mp hm
    have ih := ih hrest
    rw [List.filterMap_cons]
    by_cases hk : x.1 = k
    · subst hk
      have hnone : get? rest x.1 = none := by
        rw [← Option.not_isSome_iff_eq_none]
        exact fun hsome => hx (has_iff_mem_keys.mp hsome)
      cases hfx : f x with
      | none => simp [get?, ih, hnone, hfx]
      | some y => simp [get?, hf x y hfx, hfx]
    · cases hfx : f x with
      | none => simp [get?, ih, hk]
      | some y => simp [get?, hf x y hfx, ih, hk]

theorem get?_filter (hm : m.keys.Nodup) (p : α × β → Bool) (k : α) :
    get? (List.filter p m) k = (get? m k).filter fun v => p (k, v) := by
  have hkeeps : KeepsKeys (Option.guard p) := by
    intro x y hxy
    rw [(Option.guard_eq_some_iff.mp hxy).1]
  rw [← List.filterMap_eq_filter, get?_filterMap hkeeps hm]
  cases get? m k with
  | none => rfl
  | some v => by_cases hp : p (k, v) <;> simp [Option.guard, Option.filter, hp]

/-- Removing keys one after the other. -/
theorem foldl_remove (ks : List α) (m : OrderedMap α β) :
    ks.foldl remove m = List.filter (fun x => !ks.contains x.1) m := by
  induction ks generalizing m with
  | nil => simp
  | cons k ks ih =>
    rw [List.foldl_cons, ih, remove, List.filter_filter]
    apply List.filter_congr
    intro x _
    by_cases hx : x.1 = k <;> simp [hx]

/-- Changes the entry of a key, or drops it. -/
def adjust (m : OrderedMap α β) (k : α) (f : α × β → Option (α × β)) : OrderedMap α β :=
  List.filterMap (fun x => if x.1 = k then f x else some x) m

theorem KeepsKeys.at_ (hf : KeepsKeys f) (k : α) :
    KeepsKeys fun x : α × β => if x.1 = k then f x else some x := by
  intro x y hxy
  dsimp only at hxy
  split at hxy
  · exact hf x y hxy
  · cases hxy
    rfl

/-- A change that makes no difference. -/
theorem adjust_eq_self (h : ∀ x ∈ m, x.1 = k → f x = some x) : adjust m k f = m := by
  have hsame : ∀ x ∈ m, (if x.1 = k then f x else some x) = some x := by
    intro x hx
    split
    · next hk => exact h x hx hk
    · rfl
  rw [adjust, List.filterMap_congr hsame, List.filterMap_some]

theorem remove_eq_adjust (m : OrderedMap α β) (k : α) :
    remove m k = adjust m k fun _ => none := by
  rw [remove, adjust, ← List.filterMap_eq_filter]
  apply List.filterMap_congr
  intro x _
  by_cases hx : x.1 = k <;> simp [Option.guard, hx]

theorem insert_eq_adjust (hm : m.keys.Nodup) (h : k ∈ m.keys) (v : β) :
    insert m k v = adjust m k fun _ => some (k, v) := by
  rw [insert_eq_map hm h, adjust, ← List.filterMap_eq_map]
  apply List.filterMap_congr
  intro x _
  by_cases hx : x.1 = k <;> simp [hx]

/-- To change the entry of a key is to write or to remove the key, if it is there. -/
theorem adjust_eq (hf : KeepsKeys f) (hm : m.keys.Nodup) :
    adjust m k f = match get? m k with
      | none => m
      | some v => match f (k, v) with
        | none => remove m k
        | some y => insert m k y.2 := by
  cases hget : get? m k with
  | none =>
    apply adjust_eq_self
    intro x hx hk
    have hsome := get?_of_mem (k := x.1) (v := x.2) hm hx
    rw [hk, hget] at hsome
    cases hsome
  | some v =>
    have hentry : adjust m k f = adjust m k fun _ => f (k, v) := by
      apply List.filterMap_congr
      intro x hx
      split
      · next hk =>
        have hsome := get?_of_mem (k := x.1) (v := x.2) hm hx
        rw [hk, hget] at hsome
        rw [← hk, Option.some.inj hsome]
      · rfl
    dsimp only
    rw [hentry]
    cases hfv : f (k, v) with
    | none => exact (remove_eq_adjust m k).symm
    | some y =>
      have hk : k ∈ m.keys := has_iff_mem_keys.mp (by rw [has, hget]; rfl)
      have hy : (k, y.2) = y := Prod.ext (hf _ _ hfv).symm rfl
      dsimp only
      rw [insert_eq_adjust hm hk, hy]

/-- Changing the entry of one key after all entries were changed. -/
theorem adjust_filterMap (hf : KeepsKeys f) (m : OrderedMap α β) (k : α) :
    adjust (List.filterMap f m) k g =
      List.filterMap (fun x => if x.1 = k then (f x).bind g else f x) m := by
  rw [adjust, List.filterMap_filterMap]
  apply List.filterMap_congr
  intro x _
  cases hx : f x with
  | none => simp
  | some y => rw [Option.bind_some, hf x y hx, Option.bind_some]

/-- Changing the entry of one key does not change what another one leads to. -/
theorem get?_adjust_of_ne {j : α} (hf : KeepsKeys f) (hm : m.keys.Nodup) (h : j ≠ k) :
    get? (adjust m k f) j = get? m j := by
  rw [adjust, get?_filterMap (hf.at_ k) hm]
  cases get? m j with
  | none => rfl
  | some v => simp [h]

/-- Changing the entries of different keys one after the other. -/
theorem foldl_adjust {ks : List α} (hf : KeepsKeys f) (hks : ks.Nodup) (m : OrderedMap α β) :
    ks.foldl (fun m k => adjust m k f) m =
      List.filterMap (fun x => if x.1 ∈ ks then f x else some x) m := by
  induction ks generalizing m with
  | nil => simp
  | cons k ks ih =>
    obtain ⟨hk, hks⟩ := List.nodup_cons.mp hks
    rw [List.foldl_cons, ih hks, adjust, List.filterMap_filterMap]
    apply List.filterMap_congr
    intro x _
    by_cases hx : x.1 = k
    · -- the entry was changed already, and its key does not come again
      cases hfx : f x with
      | none => simp [hx]
      | some y =>
        have hy : y.1 ∉ ks := by rwa [hf x y hfx, hx]
        simp [hx, hy]
    · simp [hx]

/-- Changing the entries of all keys one after the other is changing all entries. -/
theorem foldl_adjust_keys (hf : KeepsKeys f) (hm : m.keys.Nodup) :
    m.keys.foldl (fun m k => adjust m k f) m = List.filterMap f m := by
  rw [foldl_adjust hf hm]
  apply List.filterMap_congr
  intro x hx
  have hmem : x.1 ∈ m.keys := List.mem_map_of_mem hx
  rw [if_pos hmem]

end Retarget.OrderedMap
