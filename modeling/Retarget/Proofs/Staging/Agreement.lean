import Retarget.Proofs.OrderedMap.Distinct
import Retarget.Proofs.Staging.Flushing

/-!
# What stagings in agreement have in common

Stagings that agree are flushed alike if there is no disk, and they have changed the same
files.  For the latter it is enough that they show the same where operations were staged.
-/

namespace Retarget.Staging

variable {t u : Staging}

/-- Stagings that agree, with one and the same result. -/
structure AgreeRun {α : Type} (a b : Staging × α) : Prop where
  staging : a.1.Agree b.1
  result : a.2 = b.2

theorem AgreeRun.of_agree {α : Type} (h : t.Agree u) (r : α) : AgreeRun (t, r) (u, r) :=
  ⟨h, rfl⟩

/-- Without a disk a flush does the same as well. -/
theorem Agree.flush (h : t.Agree u) (hd : t.disk = none) : AgreeRun t.flush u.flush := by
  have hd' : u.disk = none := by rw [← h.disk, hd]
  rw [flush_of_disk_eq_none hd, flush_of_disk_eq_none hd', ← h.log, ← h.flushed]
  exact ⟨⟨h.disk, h.overlay, rfl, rfl, h.original⟩, rfl⟩

/-- What a coherent staging noted for a path that it touched. -/
theorem Coherent.original_eq (ht : t.Coherent) {x : Location × Option String}
    (hx : x ∈ t.overlay) : t.original x.1 = .ok (t.firstSeen.get? x.1).join := by
  have hhas := OrderedMap.has_of_mem hx
  rw [ht.overlay_eq, Staged.has_replay_iff] at hhas
  obtain ⟨op, hop, hpath⟩ := hhas
  obtain ⟨state, hstate⟩ := Option.isSome_iff_exists.mp (ht.seen op hop _ hpath)
  simp [original, hstate]

/-- The overlay of a log knows no path twice. -/
theorem Coherent.nodup_keys (ht : t.Coherent) : (OrderedMap.keys t.overlay).Nodup := by
  have grow (ops : List Staged) (o : Overlay) (ho : (OrderedMap.keys o).Nodup) :
      (OrderedMap.keys (ops.foldl Staged.apply o)).Nodup := by
    induction ops generalizing o with
    | nil => exact ho
    | cons op ops ih =>
      refine ih _ ?_
      cases op with
      | write p s => exact OrderedMap.nodup_keys_insert ho _ _
      | rename a b s =>
        exact OrderedMap.nodup_keys_insert (OrderedMap.nodup_keys_insert ho _ _) _ _
  rw [ht.overlay_eq]
  exact grow t.log [] .nil

/-- Stagings that show the same where operations were staged, and held the same there at
first, have changed the same files. -/
theorem perm_changes (ht : t.Coherent) (hu : u.Coherent)
    (hget : ∀ x, t.overlay.get? x = u.overlay.get? x)
    (horiginal : ∀ x, t.overlay.has x = true → t.original x = u.original x) :
    t.changes.Perm u.changes := by
  have hperm : t.overlay.Perm u.overlay :=
    OrderedMap.perm_of_get? ht.nodup_keys hu.nodup_keys hget
  have hsame : ∀ x ∈ t.overlay,
      (t.firstSeen.get? x.1).join = (u.firstSeen.get? x.1).join := by
    intro x hx
    have hnoted := ht.original_eq hx
    rw [horiginal _ (OrderedMap.has_of_mem hx), hu.original_eq (hperm.mem_iff.mp hx)] at hnoted
    simpa using hnoted.symm
  unfold Staging.changes
  refine .trans (.of_eq (List.filterMap_congr fun x hx => ?_)) (hperm.filterMap _)
  simp only [hsame x hx]

end Retarget.Staging
