import Retarget.Proofs.Disk.Frame

/-!
# Moving a file aside and writing another one in its place

A file is moved to another name in its folder, and a new one is written in its
place.  On disk this fails only if a folder has the other name, and then nothing has
happened yet; `perform_swap` says what the disk holds otherwise.
-/

namespace Retarget.Disk

variable {d e : Disk} {init l : Location} {above n : List String} {name : String}

/-- Two disks with the same folders. -/
def SameFolders (d e : Disk) : Prop :=
  ∀ n, d.entry? n = some .folder ↔ e.entry? n = some .folder

theorem SameFolders.refl (d : Disk) : d.SameFolders d :=
  fun _ => .rfl

theorem SameFolders.trans {f : Disk} (h : d.SameFolders e) (h' : e.SameFolders f) :
    d.SameFolders f :=
  fun n => (h n).trans (h' n)

/-- The same locations lead to the same places. -/
theorem SameFolders.find (h : d.SameFolders e) : d.find l = .ok n ↔ e.find l = .ok n :=
  ⟨find_of_folders fun n => (h n).mp, find_of_folders fun n => (h n).mpr⟩

/-- Folders that are there need not be made. -/
theorem makeFolders_of_folder (hl : d.find l = .ok n) (hn : d.entry? n = some .folder) :
    d.makeFolders l = .ok d := by
  have hthere : d.isFolder l = true := by simp [isFolder, at?, hl, hn]
  unfold makeFolders
  cases hrev : l.reverse with
  | nil => rfl
  | cons s outer =>
    obtain rfl : l = outer.reverse ++ [s] := by simpa using congrArg List.reverse hrev
    have hmake : d.makeFolder (outer.reverse ++ [s]) = .error .alreadyThere := by
      unfold makeFolder
      rw [List.getLast?_concat]
      cases s with
      | name a =>
        obtain ⟨above, habove, hfolder, rfl⟩ := find_append_name.mp hl
        simp only [List.dropLast_concat, habove]
        simp [bind, Except.bind, hfolder, hn]
      | root => simp [hl, bind, Except.bind]
      | here => simp [hl, bind, Except.bind]
      | up => simp [hl, bind, Except.bind]
    unfold makeFoldersAt
    simp only [List.reverse_cons, hmake, hthere, if_true]

/-- Writing into a folder that is there. -/
theorem writeContent_of_folder (hinit : d.find init = .ok above)
    (hfolder : d.entry? above = some .folder) (c : Content) :
    d.writeContent (init ++ [.name name]) c =
      if d.entry? (above ++ [name]) = some .folder then .error .isFolder
      else .ok (d.put (above ++ [name]) (.file c)) := by
  unfold writeContent
  rw [List.getLast?_concat]
  simp only [List.dropLast_concat, hinit, bind, Except.bind, hfolder]
  split
  · next h => simp [h]
  · next h => rw [if_neg h]

/-- In a folder that is there a name leads to its own place. -/
theorem find_name (hinit : d.find init = .ok above) (hfolder : d.entry? above = some .folder)
    (name : String) : d.find (init ++ [.name name]) = .ok (above ++ [name]) :=
  find_append_name.mpr ⟨above, hinit, hfolder, rfl⟩

theorem makeFolders_parent (hinit : d.find init = .ok above)
    (hfolder : d.entry? above = some .folder) (name : String) :
    d.makeFolders (Location.parent (init ++ [.name name])) = .ok d := by
  rw [Location.parent, List.dropLast_concat]
  exact makeFolders_of_folder hinit hfolder

theorem isFile_append_name (hinit : d.find init = .ok above)
    (hfolder : d.entry? above = some .folder) :
    d.isFile (init ++ [.name name]) = true ↔ ∃ c, d.fileAt? (above ++ [name]) = some c := by
  rw [isFile_iff]
  have hfind := find_name hinit hfolder name
  constructor
  · rintro ⟨n, c, hn, hc⟩
    obtain rfl : n = above ++ [name] := by
      rw [hfind] at hn
      simpa using hn.symm
    exact ⟨c, hc⟩
  · rintro ⟨c, hc⟩
    exact ⟨_, c, hfind, hc⟩

/-- Putting a file where no folder stands. -/
theorem sameFolders_put (hne : n ≠ []) (hfree : d.entry? n ≠ some .folder) (c : Content) :
    d.SameFolders (d.put n (.file c)) := by
  intro k
  rw [entry_put hne]
  split
  · next h => simp [h, hfree]
  · exact .rfl

/-- Taking a file away. -/
theorem sameFolders_remove {c : Content} (hne : n ≠ []) (hfile : d.fileAt? n = some c) :
    d.SameFolders ⟨d.entries.remove n⟩ := by
  intro k
  rw [entry_remove hne]
  split
  · next h => simp [h, fileAt?_eq_some.mp hfile]
  · exact .rfl

/-! ## Operations in a folder that is there -/

theorem perform_write_name (hinit : d.find init = .ok above)
    (hfolder : d.entry? above = some .folder)
    (hfree : d.entry? (above ++ [name]) ≠ some .folder) (text : String) :
    (Staged.write (init ++ [.name name]) text).perform d =
      .ok (d.put (above ++ [name]) (.file (.text text))) := by
  have hwrite : d.writeContent (init ++ [.name name]) (.text text) = _ :=
    writeContent_of_folder hinit hfolder _
  rw [if_neg hfree] at hwrite
  simp [Staged.perform, makeFolders_parent hinit hfolder, bind, Except.bind, writeText, hwrite]

/-- A file is moved to another name in its folder unless a folder has that name. -/
theorem perform_rename_name {other : String} (held : String) {c : Content}
    (hinit : d.find init = .ok above) (hfolder : d.entry? above = some .folder)
    (hfile : d.fileAt? (above ++ [name]) = some c) (hne : other ≠ name) :
    (Staged.rename (init ++ [.name name]) (init ++ [.name other]) held).perform d =
      if d.entry? (above ++ [other]) = some .folder then .error .isFolder
      else .ok ⟨(d.put (above ++ [other]) (.file c)).entries.remove (above ++ [name])⟩ := by
  have hsource := find_name hinit hfolder name
  have htarget := find_name hinit hfolder other
  have hthere : d.isFile (init ++ [.name name]) = true :=
    (isFile_append_name hinit hfolder).mpr ⟨c, hfile⟩
  have hcontent : d.content (init ++ [.name name]) = .ok c := by
    simp [content, hsource, bind, Except.bind, fileAt?_eq_some.mp hfile]
  have hwrite : d.writeContent (init ++ [.name other]) c = _ :=
    writeContent_of_folder hinit hfolder c
  by_cases hblocked : d.entry? (above ++ [other]) = some .folder
  · rw [if_pos hblocked] at hwrite ⊢
    simp [Staged.perform, makeFolders_parent hinit hfolder, bind, Except.bind, hthere, move,
      hsource, htarget, hcontent, hwrite]
  · rw [if_neg hblocked] at hwrite ⊢
    simp [Staged.perform, makeFolders_parent hinit hfolder, bind, Except.bind, hthere, move,
      hsource, htarget, hcontent, hwrite, hne]

/-- Writing over a file goes through. -/
theorem perform_write (hd : d.Rooted) (hhere : Step.here ∉ l) (h : d.isFile l = true)
    (text : String) :
    ∃ n e, d.find l = .ok n ∧ (Staged.write l text).perform d = .ok e ∧ d.SameFolders e ∧
      e.Rooted ∧ ∀ k, e.fileAt? k = if k = n then some (.text text) else d.fileAt? k := by
  obtain ⟨init, name, above, c, rfl, hinit, hfolder, hfile⟩ := exists_name_of_isFile hd hhere h
  have hfree : d.entry? (above ++ [name]) ≠ some .folder := by
    rw [fileAt?_eq_some.mp hfile]
    simp
  have hperform := perform_write_name hinit hfolder hfree text
  refine ⟨above ++ [name], _, find_name hinit hfolder name, hperform,
    sameFolders_put (by simp) hfree _, (Staged.frame_perform hperform).rooted hd, ?_⟩
  intro k
  rw [fileAt?_put (by simp)]

/-- What a disk holds after the file `a` was moved to `b`, which was no folder, and a
text was written in its place. -/
structure Swapped (d : Disk) (a b : List String) (c : Content) (text : String) (e : Disk) :
    Prop where
  folders : d.SameFolders e
  rooted : d.Rooted → e.Rooted
  files : ∀ n, e.fileAt? n =
    if n = a then some (.text text) else if n = b then some c else d.fileAt? n

namespace Swapped

variable {a b : List String} {c : Content} {text : String}

theorem fileAt?_source (h : Swapped d a b c text e) : e.fileAt? a = some (.text text) := by
  rw [h.files, if_pos rfl]

theorem fileAt?_target (h : Swapped d a b c text e) (hne : b ≠ a) : e.fileAt? b = some c := by
  rw [h.files, if_neg hne, if_pos rfl]

theorem grown (h : Swapped d a b c text e) (hn : (d.fileAt? n).isSome) :
    (e.fileAt? n).isSome := by
  rw [h.files]
  split
  · rfl
  · split
    · rfl
    · exact hn

/-- The only new file is the one that was moved. -/
theorem of_isSome (h : Swapped d a b c text e) (hfile : d.fileAt? a = some c)
    (hn : (e.fileAt? n).isSome) : (d.fileAt? n).isSome ∨ n = b := by
  rw [h.files] at hn
  split at hn
  · next heq => exact .inl (by simp [heq, hfile])
  · split at hn
    · next heq => exact .inr heq
    · exact .inl hn

/-- A content stays where it was or is moved with its file, if nothing was in the way. -/
theorem kept (h : Swapped d a b c text e) (hne : b ≠ a) (hfile : d.fileAt? a = some c)
    (hfree : d.fileAt? b = none) {x : Content} (hn : d.fileAt? n = some x) :
    e.fileAt? n = some x ∨ n = a ∧ e.fileAt? b = some x := by
  by_cases hmoved : n = a
  · subst hmoved
    obtain rfl : c = x := Option.some.inj (hfile.symm.trans hn)
    exact .inr ⟨rfl, h.fileAt?_target hne⟩
  · refine .inl ?_
    rw [h.files, if_neg hmoved, if_neg, hn]
    rintro rfl
    rw [hfree] at hn
    cases hn

end Swapped

/-- Moving a file aside and writing another one in its place goes through unless a
folder has the other name; then nothing happens. -/
theorem perform_swap {other : String} (held text : String) {c : Content}
    (hinit : d.find init = .ok above) (hfolder : d.entry? above = some .folder)
    (hfile : d.fileAt? (above ++ [name]) = some c) (hne : other ≠ name) :
    (d.entry? (above ++ [other]) = some .folder ∧
      ∃ f, (Staged.rename (init ++ [.name name]) (init ++ [.name other]) held).attempt d =
        (d, .error f)) ∨
    ∃ e, Staged.performAll d [.rename (init ++ [.name name]) (init ++ [.name other]) held,
        .write (init ++ [.name name]) text] = .ok e ∧
      Swapped d (above ++ [name]) (above ++ [other]) c text e := by
  have hrename := perform_rename_name held hinit hfolder hfile hne
  by_cases hblocked : d.entry? (above ++ [other]) = some .folder
  · left
    rw [if_pos hblocked] at hrename
    refine ⟨hblocked, .isFolder, ?_⟩
    simp [Staged.attempt, hrename, makeFolders_parent hinit hfolder]
  · right
    rw [if_neg hblocked] at hrename
    have hput := sameFolders_put (by simp) hblocked c
    have hstill : (d.put (above ++ [other]) (.file c)).fileAt? (above ++ [name]) = some c := by
      rw [fileAt?_put (by simp), if_neg (by simpa using hne.symm), hfile]
    have hmoved := hput.trans (sameFolders_remove (by simp) hstill)
    have hfree : Disk.entry? ⟨(d.put (above ++ [other]) (.file c)).entries.remove (above ++ [name])⟩
        (above ++ [name]) ≠ some .folder := by
      rw [entry_remove (by simp), if_pos rfl]
      simp
    have hwrite := perform_write_name (hmoved.find.mp hinit) ((hmoved above).mp hfolder) hfree text
    refine ⟨_, ?_, hmoved.trans (sameFolders_put (by simp) hfree (.text text)), ?_, ?_⟩
    · rw [Staged.performAll_cons_ok hrename, Staged.performAll_cons_ok hwrite]
      rfl
    · exact fun hd => (Staged.frame_perform hwrite).rooted
        ((Staged.frame_perform hrename).rooted hd)
    · intro n
      rw [fileAt?_put (by simp), fileAt?_remove (by simp), fileAt?_put (by simp)]
      by_cases hn : n = above ++ [name]
      · simp [hn]
      · simp [hn]

end Retarget.Disk
