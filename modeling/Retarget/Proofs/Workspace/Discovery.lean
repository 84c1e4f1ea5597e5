import Retarget.Proofs.Disk.Places
import Retarget.Proofs.Path.Spelling
import Retarget.Workspace.Discovery

/-!
# What discovering a workspace finds

Every project of a discovered workspace has its document in the directory, at the
path that it was read from, and no two projects share a name.
-/

namespace Retarget

namespace Disk

/-- A directory as file systems have it: everything stands in a folder and has a name
that can be written in a path. -/
structure WellFormed (d : Disk) : Prop where
  rooted : d.Rooted
  spelled : ∀ names, (d.entry? names).isSome → ∀ a ∈ names, (Step.name a).Spelled

/-- The names of a file can be written in a path. -/
theorem WellFormed.wellSpelled {d : Disk} (hd : d.WellFormed) {names : List String}
    (h : d.isFile (names.map .name) = true) : Location.WellSpelled (names.map .name) := by
  obtain ⟨n, c, hn, hc⟩ := isFile_iff.mp h
  obtain rfl : n = names := by simpa using follow_map_name hn
  refine Location.wellSpelled_of_all fun s hs => ?_
  obtain ⟨a, ha, rfl⟩ := List.mem_map.mp hs
  exact hd.spelled n (by simp [fileAt?_eq_some.mp hc]) a ha

/-- It is enough to look at the entries. -/
theorem wellFormed_of_entries {d : Disk}
    (h : ∀ x ∈ d.entries, d.entry? x.1.dropLast = some .folder ∧
      ∀ a ∈ x.1, a ≠ "" ∧ a ≠ "." ∧ a ≠ ".." ∧ '/' ∉ a.toList) : d.WellFormed := by
  refine ⟨rooted_of_entries fun x hx => (h x hx).1, fun names hsome a ha => ?_⟩
  rcases mem_entries_of_isSome hsome with rfl | ⟨e, he⟩
  · cases ha
  · obtain ⟨hne, hdot, hdots, hslash⟩ := (h _ he).2 a ha
    exact Step.spelled_name hne hdot hdots hslash

end Disk

/-- A project keeps the path that it was read from. -/
theorem Project.configPath_of_ofText {path : Path} {text : String} {p : Project}
    (h : Project.ofText path text = .ok p) : p.configPath = path := by
  obtain ⟨j, -, h⟩ := ok_of_bind h
  split at h
  · dsimp only at h
    split at h
    · cases h
    · split at h
      · cases h
        rfl
      · cases h
        rfl
      · obtain ⟨ts, -, h⟩ := ok_of_bind h
        cases h
        rfl
      · cases h
  · cases h

namespace Workspace

/-- Projects with their documents in a directory, under different names. -/
structure Documented (d : Disk) (w : Workspace) : Prop where
  documents : ∀ p ∈ w.projects, d.isFile p.configPath.location = true
  names : (w.projects.map Project.name).Nodup

variable {d : Disk} {v w : Workspace}

theorem documented_load (hd : d.WellFormed) (hv : v.Documented d) {names : List String}
    (h : load (.open d) v names = .ok w) : w.Documented d := by
  obtain ⟨text, htext, h⟩ := ok_of_bind h
  obtain ⟨p, hp, h⟩ := ok_of_bind h
  have hfile : d.isFile (names.map .name) = true := by
    simp only [Staging.read, Staging.open, OrderedMap.get?, Staging.readDisk] at htext
    split at htext
    · cases htext
    · next hread =>
      split at hread
      · assumption
      · cases hread
    · cases htext
  have hpath : p.configPath.location = names.map .name := by
    rw [Project.configPath_of_ofText hp, Location.location_path (hd.wellSpelled hfile)]
  unfold insert at h
  split at h
  · cases h
  · next hnew =>
    obtain rfl : (⟨v.projects ++ [p]⟩ : Workspace) = w := by simpa using h
    refine ⟨?_, ?_⟩
    · intro q hq
      rcases List.mem_append.mp hq with hq | hq
      · exact hv.documents q hq
      · rw [List.mem_singleton.mp hq, hpath]
        exact hfile
    · rw [List.map_append, List.nodup_append]
      refine ⟨hv.names, by simp, ?_⟩
      intro a ha b hb heq
      obtain ⟨q, hq, rfl⟩ := List.mem_map.mp ha
      obtain rfl : b = p.name := by simpa using hb
      have := List.find?_eq_none.mp hnew q hq
      simp [heq] at this

/-- A discovered workspace has its documents in the directory. -/
theorem documented_of_discover (hd : d.WellFormed) (h : discover (.open d) = .ok w) :
    w.Documented d := by
  obtain ⟨found, -, h⟩ := ok_of_bind h
  have all : ∀ (found : List (List String)) (v : Workspace), v.Documented d →
      found.foldlM (load (.open d)) v = .ok w → w.Documented d := by
    intro found
    induction found with
    | nil =>
      intro v hv h
      obtain rfl : v = w := by simpa [pure, Except.pure] using h
      exact hv
    | cons names found ih =>
      intro v hv h
      rw [List.foldlM_cons] at h
      obtain ⟨v', hload, h⟩ := ok_of_bind h
      exact ih v' (documented_load hd hv hload) h
  exact all found .empty ⟨by simp [empty], by simp [empty]⟩ h

/-- What is found in a directory whose documents can all be read. -/
def found (d : Disk) : Workspace :=
  match discover (.open d) with
  | .ok w => w
  | .error _ => .empty

theorem discover_eq_found (h : (discover (.open d)).isOk = true) :
    discover (.open d) = .ok (found d) := by
  unfold found
  split
  · assumption
  · next hf => simp [hf, Except.isOk, Except.toBool] at h

end Workspace

end Retarget
