import Retarget.Proofs.Disk.Frame
import Retarget.Proofs.OrderedMap.Distinct

/-!
# Directories in which no name stands twice

A directory lists every place once, and carrying staged operations out keeps it so:
whatever is put somewhere takes the place of what was there.
-/

namespace Retarget

namespace Disk

variable {d e : Disk} {l : Location} {n : List String}

/-- No place is listed twice. -/
def Distinct (d : Disk) : Prop :=
  (OrderedMap.keys d.entries).Nodup

instance (d : Disk) : Decidable d.Distinct :=
  inferInstanceAs (Decidable (List.Nodup _))

theorem Distinct.put (hd : d.Distinct) (n : List String) (x : Entry) : (d.put n x).Distinct :=
  OrderedMap.nodup_keys_insert hd n x

theorem Distinct.remove (hd : d.Distinct) (n : List String) :
    (Disk.mk (d.entries.remove n)).Distinct :=
  List.Nodup.sublist (List.filter_sublist.map Prod.fst) hd

theorem Distinct.makeFolder (hd : d.Distinct) (h : d.makeFolder l = .ok e) : e.Distinct := by
  unfold Disk.makeFolder at h
  split at h
  · obtain ⟨above, -, h⟩ := ok_of_bind h
    split at h
    · cases h
    · cases h
    · split at h
      · cases h
      · obtain rfl := Except.ok.inj h
        exact hd.put _ _
  · obtain ⟨_, -, h⟩ := ok_of_bind h
    cases h

theorem Distinct.makeFoldersAt (hd : d.Distinct) {steps : List Step}
    (h : d.makeFoldersAt steps = .ok e) : e.Distinct := by
  induction steps generalizing e with
  | nil =>
    obtain rfl := Except.ok.inj h
    exact hd
  | cons s above ih =>
    unfold Disk.makeFoldersAt at h
    dsimp only at h
    split at h
    · next hmade =>
      obtain rfl := Except.ok.inj h
      exact hd.makeFolder hmade
    · split at h
      · cases h
      · next habove =>
        split at h
        · next hmade =>
          obtain rfl := Except.ok.inj h
          exact (ih habove).makeFolder hmade
        · split at h
          · obtain rfl := Except.ok.inj h
            exact ih habove
          · cases h
    · split at h
      · obtain rfl := Except.ok.inj h
        exact hd
      · cases h

theorem Distinct.writeContent (hd : d.Distinct) {c : Content} (h : d.writeContent l c = .ok e) :
    e.Distinct := by
  obtain ⟨above, name, -, -, -, rfl⟩ := writeContent_ok h
  exact hd.put _ _

theorem Distinct.move (hd : d.Distinct) {a b : Location} (h : d.move a b = .ok e) :
    e.Distinct := by
  obtain ⟨source, above, name, c, -, -, -, -, -, rfl⟩ := move_ok h
  split
  · exact hd.put _ _
  · exact (hd.put _ _).remove _

end Disk

namespace Staged

variable {d e : Disk} {op : Staged} {ops : List Staged}

theorem distinct_perform (hd : d.Distinct) (h : op.perform d = .ok e) : e.Distinct := by
  cases op with
  | write p s =>
    obtain ⟨made, hmade, h⟩ := ok_of_bind h
    exact (hd.makeFoldersAt hmade).writeContent h
  | rename a b s =>
    obtain ⟨made, hmade, h⟩ := ok_of_bind h
    have hmade := hd.makeFoldersAt hmade
    split at h
    · exact hmade.move h
    · exact hmade.writeContent h

theorem distinct_performAll (hd : d.Distinct) (h : performAll d ops = .ok e) : e.Distinct := by
  induction ops generalizing d with
  | nil =>
    obtain rfl : d = e := Except.ok.inj h
    exact hd
  | cons op ops ih =>
    obtain ⟨d', hop, hrest⟩ := performAll_cons_inv h
    exact ih (distinct_perform hd hop) hrest

/-- An operation that fails may have made folders. -/
theorem distinct_attempt_error {f : Disk.Fault} (hd : d.Distinct)
    (h : op.attempt d = (e, .error f)) : e.Distinct := by
  rcases attempt_cases d op with ⟨e', -, hatt⟩ | ⟨e', f', -, hatt, hmade⟩
  · rw [hatt] at h
    cases (Prod.mk.inj h).2
  · rw [hatt] at h
    obtain ⟨rfl, -⟩ := Prod.mk.inj h
    rcases hmade with rfl | hmade
    · exact hd
    · exact hd.makeFoldersAt hmade

end Staged

end Retarget
