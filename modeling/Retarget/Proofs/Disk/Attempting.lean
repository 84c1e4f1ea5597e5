import Mathlib.Data.List.Induction
import Retarget.Proofs.Disk.Swapping

/-!
# Operations that fail leave nothing behind

A path that is spelled with names only leads to one place.  Making the folders above it
makes folders on the way there and nowhere else (`makeFolders_names`).  So an operation
on such a path that fails after its folders were made has made none: a folder stands in
the place of its file, and all that is above it was there before.
-/

namespace Retarget

variable {d e : Disk}

namespace Disk

variable {names k : List String} {name : String}

/-- A folder that is made stands in the folder above it. -/
theorem makeFolder_names (h : d.makeFolder ((names ++ [name]).map .name) = .ok e) :
    e = d.put (names ++ [name]) .folder := by
  unfold makeFolder at h
  rw [List.map_append, List.map_singleton, List.getLast?_concat, List.dropLast_concat] at h
  dsimp only at h
  obtain ⟨above, habove, hput⟩ := ok_of_bind h
  obtain rfl : above = names := by simpa using follow_map_name habove
  split at hput
  · cases hput
  · cases hput
  · split at hput
    · cases hput
    · exact (Except.ok.inj hput).symm

/-- The only folder that is made is the one that was asked for. -/
theorem makeFolder_makes (h : d.makeFolder ((names ++ [name]).map .name) = .ok e) :
    e.entry? (names ++ [name]) = some .folder ∧
      ∀ k, e.entry? k = some .folder → d.entry? k = some .folder ∨ k <+: names ++ [name] := by
  obtain rfl := makeFolder_names h
  refine ⟨by simp [entry_put], fun k hk => ?_⟩
  rw [entry_put (by simp)] at hk
  by_cases heq : k = names ++ [name]
  · exact .inr (heq ▸ List.prefix_rfl)
  · exact .inl (by simpa [heq] using hk)

theorem entry_of_isFolder (h : d.isFolder (names.map .name) = true) :
    d.entry? names = some .folder := by
  have hat : d.at? (names.map .name) = some .folder := by simpa [isFolder] using h
  unfold at? at hat
  split at hat
  · next n hn =>
    obtain rfl : n = names := by simpa using follow_map_name hn
    exact hat
  · cases hat

/-- Making folders leaves a folder at the end of the way, and makes folders on the way
only. -/
theorem makeFolders_names (h : d.makeFolders (names.map .name) = .ok e) :
    e.entry? names = some .folder ∧
      ∀ k, e.entry? k = some .folder → d.entry? k = some .folder ∨ k <+: names := by
  unfold makeFolders at h
  induction names using List.reverseRecOn generalizing e with
  | nil =>
    obtain rfl : d = e := by simpa [makeFoldersAt] using h
    exact ⟨by simp [ entry?], fun k hk => .inl hk⟩
  | append_singleton names name ih =>
    have hreverse : ((names ++ [name]).map Step.name).reverse =
        .name name :: (names.map Step.name).reverse := by simp
    have hforth : (Step.name name :: (names.map Step.name).reverse).reverse =
        (names ++ [name]).map Step.name := by simp
    rw [hreverse] at h
    unfold makeFoldersAt at h
    simp only [hforth] at h
    split at h
    · next hmade =>
      obtain rfl := Except.ok.inj h
      exact makeFolder_makes hmade
    · split at h
      · cases h
      · next d' habove =>
        obtain ⟨-, hway⟩ := ih habove
        have hwiden (k : List String) (hk : d'.entry? k = some .folder) :
            d.entry? k = some .folder ∨ k <+: names ++ [name] :=
          (hway k hk).imp_right fun hbegins => hbegins.trans (List.prefix_append names [name])
        split at h
        · next hmade =>
          obtain rfl := Except.ok.inj h
          obtain ⟨hthere, hmore⟩ := makeFolder_makes hmade
          exact ⟨hthere, fun k hk => (hmore k hk).elim (hwiden k) .inr⟩
        · split at h
          · next hfolder =>
            obtain rfl := Except.ok.inj h
            exact ⟨entry_of_isFolder hfolder, hwiden⟩
          · cases h
    · split at h
      · next hfolder =>
        obtain rfl := Except.ok.inj h
        exact ⟨entry_of_isFolder hfolder, fun k hk => .inl hk⟩
      · cases h

/-- Where a folder stands below, the folders above it need not be made. -/
theorem makeFolders_of_blocked (hd : d.Rooted) (h : d.makeFolders (names.map .name) = .ok e)
    (hblocked : e.entry? (names ++ [name]) = some .folder) : e = d := by
  have hbelow : d.entry? (names ++ [name]) = some .folder := by
    rcases (makeFolders_names h).2 _ hblocked with hthere | hbegins
    · exact hthere
    · have hlength := hbegins.length_le
      rw [List.length_append, List.length_singleton] at hlength
      omega
  have habove : d.entry? names = some .folder := hd names name (by simp [hbelow])
  have hfind : d.find (names.map .name) = .ok names :=
    find_names hd (by simp [habove])
  rw [makeFolders_of_folder hfind habove] at h
  exact (Except.ok.inj h).symm

/-- A file can be put behind folders that were made unless a folder stands there. -/
theorem writeContent_of_made (hd : d.Rooted) (h : d.makeFolders (names.map .name) = .ok e)
    (c : Content) : e.writeContent ((names ++ [name]).map .name) c =
      if e.entry? (names ++ [name]) = some .folder then .error .isFolder
      else .ok (e.put (names ++ [name]) (.file c)) := by
  have hfolder := (makeFolders_names h).1
  have hfind : e.find (names.map .name) = .ok names :=
    find_names ((frame_makeFolders h).rooted hd) (by simp [hfolder])
  rw [List.map_append, List.map_singleton]
  exact writeContent_of_folder hfind hfolder c

end Disk

namespace Staged

variable {op : Staged} {f : Disk.Fault}

/-- An operation that fails although its folders are there is in the way of a folder. -/
theorem blocked_of_perform (hd : d.Rooted) {names : List String} {name : String}
    (htarget : op.target = (names ++ [name]).map .name)
    (hmade : d.makeFolders (names.map .name) = .ok e) (h : op.perform d = .error f) :
    e.entry? (names ++ [name]) = some .folder := by
  refine Decidable.byContradiction fun hfree => ?_
  have hparent : Location.parent ((names ++ [name]).map Step.name) = names.map .name := by
    simp [Location.parent]
  have hwrite (c : Content) : e.writeContent ((names ++ [name]).map .name) c =
      .ok (e.put (names ++ [name]) (.file c)) := by
    rw [Disk.writeContent_of_made hd hmade, if_neg hfree]
  cases op with
  | write p s =>
    obtain rfl : p = (names ++ [name]).map .name := htarget
    simp only [perform, hparent, hmade, bind, Except.bind, Disk.writeText, hwrite,
      reduceCtorEq] at h
  | rename a b s =>
    obtain rfl : b = (names ++ [name]).map .name := htarget
    have hfind : e.find ((names ++ [name]).map .name) = .ok (names ++ [name]) := by
      rw [List.map_append, List.map_singleton, Disk.find_append_name]
      have hfolder := (Disk.makeFolders_names hmade).1
      exact ⟨names, Disk.find_names ((Disk.frame_makeFolders hmade).rooted hd) (by simp [hfolder]),
        hfolder, rfl⟩
    simp only [perform, hparent, hmade, bind, Except.bind] at h
    split at h
    · next hfile =>
      obtain ⟨n, c, hn, hc⟩ := Disk.isFile_iff.mp hfile
      have hcontent : e.content a = .ok c := by
        simp [Disk.content, hn, bind, Except.bind, Disk.fileAt?_eq_some.mp hc]
      simp only [Disk.move, hn, hfind, hcontent, hwrite, bind, Except.bind] at h
      split at h
      · cases h
      · cases h
    · simp only [Disk.writeText, hwrite, reduceCtorEq] at h

/-- An operation on a path spelled with names that fails leaves the disk as it was. -/
theorem attempt_error (hd : d.Rooted) {names : List String} (htarget : op.target = names.map .name)
    (h : op.attempt d = (e, .error f)) : e = d := by
  rcases attempt_cases d op with ⟨e', -, hatt⟩ | ⟨e', f', hfails, hatt, rfl | hmade⟩
  · simp [hatt] at h
  · exact ((Prod.mk.inj (hatt.symm.trans h)).1).symm
  · obtain rfl : e' = e := (Prod.mk.inj (hatt.symm.trans h)).1
    rw [htarget] at hmade
    cases names using List.reverseRecOn with
    | nil => simpa [Disk.makeFolders, Disk.makeFoldersAt, Location.parent, eq_comm] using hmade
    | append_singleton names name =>
      have hmade' : d.makeFolders (names.map .name) = .ok e' := by
        simpa [Location.parent] using hmade
      exact Disk.makeFolders_of_blocked hd hmade' (blocked_of_perform hd htarget hmade' hfails)

end Staged

end Retarget
