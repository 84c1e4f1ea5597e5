import Retarget.Relocation
import Retarget.Disk

/-!
# Places on a disk

Following a location leads to a list of names, its *place*.  Which place that is
can be read off the steps alone, so two disks never disagree about it; they only
differ in whether the folders on the way are there.

The lemmas about writing and moving say all that is needed later: where the file
was put, and that there was no folder.
-/

namespace Retarget

/-- A computation with two parts succeeds if both do. -/
theorem ok_of_bind {ε α β : Type} {x : Except ε α} {f : α → Except ε β} {b : β}
    (h : x >>= f = .ok b) : ∃ a, x = .ok a ∧ f a = .ok b := by
  cases x with
  | error e => cases h
  | ok a => exact ⟨a, rfl, h⟩

/-- A result shows in what is made of it. -/
theorem eq_ok_of_map {ε α β : Type} {r : Except ε α} {g : α → β} {b : β}
    (h : r.map g = .ok b) : ∃ a, r = .ok a ∧ g a = b := by
  cases r with
  | error f => simp [Except.map] at h
  | ok a => exact ⟨a, rfl, by simpa [Except.map] using h⟩

namespace Disk

variable {d e : Disk} {l : Location} {n k : List String}

/-- The content of the file under a list of names. -/
def fileAt? (d : Disk) (names : List String) : Option Content :=
  match d.entry? names with
  | some (.file c) => some c
  | _ => none

/-- Everything stands in a folder. -/
def Rooted (d : Disk) : Prop :=
  ∀ names name, (d.entry? (names ++ [name])).isSome → d.entry? names = some .folder

theorem fileAt?_eq_some {c : Content} : d.fileAt? n = some c ↔ d.entry? n = some (.file c) := by
  unfold fileAt?
  split
  · next h => simp [h]
  · next h => simp only [reduceCtorEq, false_iff]; exact h c

theorem fileAt?_eq_none_of_folder (h : d.entry? n = some .folder) : d.fileAt? n = none := by
  simp [fileAt?, h]

theorem mem_entries_of_fileAt? {c : Content} (h : d.fileAt? n = some c) :
    (n, Entry.file c) ∈ d.entries := by
  rw [fileAt?_eq_some] at h
  unfold entry? at h
  split at h
  · cases h
  · exact OrderedMap.mem_of_get? h

theorem ne_nil_of_fileAt? {c : Content} (h : d.fileAt? n = some c) : n ≠ [] := by
  rintro rfl
  simp [fileAt?, entry?] at h

/-- The content of the file that a location leads to. -/
def file? (d : Disk) (l : Location) : Option Content :=
  match d.find l with
  | .ok n => d.fileAt? n
  | .error _ => none

theorem file?_eq_some {c : Content} :
    d.file? l = some c ↔ ∃ n, d.find l = .ok n ∧ d.fileAt? n = some c := by
  unfold file?
  cases d.find l with
  | ok n => simp
  | error f => simp

theorem isFile_iff : d.isFile l = true ↔ ∃ n c, d.find l = .ok n ∧ d.fileAt? n = some c := by
  unfold isFile at?
  cases hf : d.find l with
  | error f => simp
  | ok n =>
    simp only [Except.ok.injEq, exists_and_left, exists_eq_left', fileAt?]
    cases d.entry? n with
    | none => simp
    | some x => cases x <;> simp

theorem entry_put (hn : n ≠ []) (x : Entry) :
    Disk.entry? (d.put n x) k = if k = n then some x else d.entry? k := by
  unfold entry? put
  by_cases hk : k = []
  · subst hk
    simp [hn.symm]
  · simp [hk, OrderedMap.get?_insert]

theorem entry_remove (hn : n ≠ []) :
    Disk.entry? ⟨d.entries.remove n⟩ k = if k = n then none else d.entry? k := by
  unfold entry?
  by_cases hk : k = []
  · subst hk
    simp [hn.symm]
  · by_cases hkn : k = n
    · subst hkn
      simp [hk, OrderedMap.get?_remove_self]
    · simp [hk, hkn, OrderedMap.get?_remove_of_ne hkn]

theorem fileAt?_put (hn : n ≠ []) (c : Content) :
    (d.put n (.file c)).fileAt? k = if k = n then some c else d.fileAt? k := by
  unfold fileAt?
  rw [entry_put hn]
  by_cases hk : k = n
  · simp [hk]
  · simp [hk]

theorem fileAt?_remove (hn : n ≠ []) :
    (Disk.mk (d.entries.remove n)).fileAt? k = if k = n then none else d.fileAt? k := by
  unfold fileAt?
  rw [entry_remove hn]
  by_cases hk : k = n
  · simp [hk]
  · simp [hk]

/-! ## Following steps -/

/-- The folders on the way decide whether steps can be followed, and nothing else. -/
theorem follow_of_folders (h : ∀ n, d.entry? n = some .folder → e.entry? n = some .folder)
    {at_ : List String} (hd : d.follow at_ l = .ok n) : e.follow at_ l = .ok n := by
  induction l generalizing at_ with
  | nil => simpa [follow] using hd
  | cons s l ih =>
    unfold follow at hd ⊢
    split at hd
    · simp at hd
    · simp at hd
    · next hfolder =>
      rw [h at_ hfolder]
      dsimp only
      split at hd
      · exact ih hd
      · exact ih hd
      · split at hd
        · simp at hd
        · next hne =>
          simp only [hne, if_false]
          exact ih hd
      · simp at hd

theorem find_of_folders (h : ∀ n, d.entry? n = some .folder → e.entry? n = some .folder)
    (hd : d.find l = .ok n) : e.find l = .ok n :=
  follow_of_folders h hd

/-- The place of a location is read off its steps. -/
theorem follow_eq_resolve {at_ : List String} (hd : d.follow at_ l = .ok n) :
    Location.follow at_.reverse l = some n.reverse := by
  induction l generalizing at_ with
  | nil =>
    obtain rfl : at_ = n := by simpa [follow] using hd
    rfl
  | cons s l ih =>
    unfold follow at hd
    split at hd
    · simp at hd
    · simp at hd
    · split at hd
      · next a =>
        have := ih hd
        rw [Location.follow]
        simpa using this
      · rw [Location.follow]
        exact ih hd
      · split at hd
        · simp at hd
        · next hne =>
          obtain ⟨init, a, rfl⟩ : ∃ init a, at_ = init ++ [a] :=
            ⟨_, _, (List.dropLast_concat_getLast hne).symm⟩
          have := ih hd
          simpa [Location.follow] using this
      · simp at hd

theorem resolve_of_find (h : d.find l = .ok n) : Location.resolve l = some n := by
  have := follow_eq_resolve h
  simp only [List.reverse_nil] at this
  simp [Location.resolve, this]

/-- Steps are followed one part after the other. -/
theorem follow_append (d : Disk) (at_ : List String) (l more : List Step) :
    d.follow at_ (l ++ more) = (d.follow at_ l).bind fun n => d.follow n more := by
  induction l generalizing at_ with
  | nil => rfl
  | cons s l ih =>
    simp only [List.cons_append, follow]
    split
    · rfl
    · rfl
    · cases s with
      | name a => exact ih _
      | here => exact ih _
      | up =>
        dsimp only
        split
        · rfl
        · exact ih _
      | root => rfl

/-- A location that goes on with a step. -/
theorem find_append {s : Step} (h : d.find (l ++ [s]) = .ok n) :
    ∃ above, d.find l = .ok above ∧ d.entry? above = some .folder ∧ d.follow above [s] = .ok n := by
  unfold find at h ⊢
  rw [follow_append] at h
  cases habove : d.follow [] l with
  | error f => simp [habove, Except.bind] at h
  | ok above =>
    rw [habove] at h
    refine ⟨above, rfl, ?_, h⟩
    simp only [Except.bind, follow] at h
    split at h
    · cases h
    · cases h
    · assumption

/-- A location that goes on with a name. -/
theorem find_append_name {name : String} :
    d.find (l ++ [.name name]) = .ok n ↔
      ∃ above, d.find l = .ok above ∧ d.entry? above = some .folder ∧ n = above ++ [name] := by
  constructor
  · intro h
    obtain ⟨above, habove, hfolder, hn⟩ := find_append h
    exact ⟨above, habove, hfolder, by simpa [follow, hfolder] using hn.symm⟩
  · rintro ⟨above, habove, hfolder, rfl⟩
    unfold find at habove ⊢
    simp [follow_append, habove, Except.bind, follow, hfolder]

/-- Whatever is above an entry is a folder. -/
theorem folder_of_append (hd : d.Rooted) {more : List String} (hne : more ≠ [])
    (h : (d.entry? (n ++ more)).isSome) : d.entry? n = some .folder := by
  induction more generalizing n with
  | nil => exact absurd rfl hne
  | cons a more ih =>
    by_cases hmore : more = []
    · subst hmore
      exact hd n a h
    · have hfolder : d.entry? (n ++ [a]) = some .folder := ih hmore (by simpa using h)
      exact hd n a (by simp [hfolder])

/-- What stands under a list of names is an entry. -/
theorem mem_entries_of_isSome (h : (d.entry? n).isSome) : n = [] ∨ ∃ x, (n, x) ∈ d.entries := by
  unfold entry? at h
  split at h
  · next hnil => exact .inl hnil
  · obtain ⟨x, hx⟩ := Option.isSome_iff_exists.mp h
    exact .inr ⟨x, OrderedMap.mem_of_get? hx⟩

/-- It is enough to look at the folders of the entries. -/
theorem rooted_of_entries (h : ∀ x ∈ d.entries, d.entry? x.1.dropLast = some .folder) :
    d.Rooted := by
  intro names name hsome
  rcases mem_entries_of_isSome hsome with hnil | ⟨x, hx⟩
  · simp at hnil
  · simpa using h _ hx

/-- Names alone lead to an entry. -/
theorem follow_names (hd : d.Rooted) {at_ names : List String}
    (h : (d.entry? (at_ ++ names)).isSome) :
    d.follow at_ (names.map .name) = .ok (at_ ++ names) := by
  induction names generalizing at_ with
  | nil => simp [follow]
  | cons a names ih =>
    have hfolder := folder_of_append hd (by simp) h
    have hrest : d.follow (at_ ++ [a]) (names.map .name) = .ok (at_ ++ [a] ++ names) :=
      ih (by simpa using h)
    simpa [follow, hfolder] using hrest

theorem find_names (hd : d.Rooted) {names : List String} (h : (d.entry? names).isSome) :
    d.find (names.map .name) = .ok names :=
  follow_names hd (by simpa using h)

/-- Names alone lead nowhere else. -/
theorem follow_map_name {at_ names : List String}
    (h : d.follow at_ (names.map .name) = .ok n) : n = at_ ++ names := by
  induction names generalizing at_ with
  | nil => simpa [follow] using h.symm
  | cons a names ih =>
    rw [List.map_cons] at h
    unfold follow at h
    split at h
    · cases h
    · cases h
    · rw [ih h, List.append_assoc, List.singleton_append]

/-- A file has a name in a folder. -/
theorem exists_name_of_isFile (hd : d.Rooted) (hhere : Step.here ∉ l) (h : d.isFile l = true) :
    ∃ init name above c, l = init ++ [.name name] ∧ d.find init = .ok above ∧
      d.entry? above = some .folder ∧ d.fileAt? (above ++ [name]) = some c := by
  obtain ⟨n, c, hn, hc⟩ := isFile_iff.mp h
  have hne : l ≠ [] := by
    rintro rfl
    obtain rfl : [] = n := by simpa [find, follow] using hn
    exact ne_nil_of_fileAt? hc rfl
  obtain ⟨init, s, rfl⟩ : ∃ init s, l = init ++ [s] :=
    ⟨_, _, (List.dropLast_concat_getLast hne).symm⟩
  obtain ⟨above, habove, hfolder, hs⟩ := find_append hn
  cases s with
  | name a =>
    obtain rfl : above ++ [a] = n := by simpa [follow, hfolder] using hs
    exact ⟨init, a, above, c, rfl, habove, hfolder, hc⟩
  | here => exact absurd (by simp) hhere
  | up =>
    -- the folder above a folder is no file
    have hne' : above ≠ [] := by
      rintro rfl
      simp [follow, hfolder] at hs
    obtain rfl : above.dropLast = n := by simpa [follow, hfolder, hne'] using hs
    rw [← List.dropLast_concat_getLast hne'] at hfolder
    have := hd _ _ (by rw [hfolder]; rfl)
    rw [fileAt?_eq_none_of_folder this] at hc
    cases hc
  | root => simp [follow, hfolder] at hs

end Disk

end Retarget
