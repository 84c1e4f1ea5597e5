import Retarget.Proofs.Disk.Swapping
import Retarget.Proofs.Migration.Swaps
import Retarget.Proofs.Path.Archive

/-!
# Carrying swaps out

The swaps that a project stages are carried out one after the other, up to the first
whose archive is a folder.  `Carried` is what is known of the disk in between: no
folder has changed, no file is gone, and the only new files are archives.

If no old config has two spellings among the swaps, every content that was there is
still there, in its place or in a new file.
-/

namespace Retarget.Migration

/-- Locations of which no two lead to one place. -/
def SpelledOnce (d : Disk) (cs : List Location) : Prop :=
  ∀ a ∈ cs, ∀ b ∈ cs, ∀ n, d.find a = .ok n → d.find b = .ok n → a = b

/-- The disk after swaps were carried out. -/
structure Carried (m : Migration) (d : Disk) (swaps : List Swap) (e : Disk) : Prop where
  folders : d.SameFolders e
  rooted : e.Rooted
  there : ∀ path, m.Swaps swaps path → e.isFile path = true
  grown : ∀ n, (d.fileAt? n).isSome → (e.fileAt? n).isSome
  archives : ∀ n, (e.fileAt? n).isSome → (d.fileAt? n).isSome ∨
    ∃ s ∈ swaps, d.find (m.archive s.config) = .ok n
  kept : SpelledOnce d (swaps.map Swap.config) → ∀ n c, d.fileAt? n = some c →
    ∃ g, e.fileAt? g = some c ∧ (g = n ∨ d.fileAt? g = none)

variable {m : Migration} {d e : Disk} {swaps : List Swap} {path : Location}

theorem carried_nil (hd : d.Rooted) : m.Carried d [] d :=
  ⟨.refl d, hd, by rintro path ⟨s, hs, -⟩; simp at hs, fun _ h => h, fun _ h => .inl h,
    fun _ n c h => ⟨n, h, .inl rfl⟩⟩

/-- Where a file was there is one still. -/
theorem isFile_of_grown (hfolders : d.SameFolders e)
    (hgrown : ∀ n, (d.fileAt? n).isSome → (e.fileAt? n).isSome) (h : d.isFile path = true) :
    e.isFile path = true := by
  obtain ⟨n, c, hn, hc⟩ := Disk.isFile_iff.mp h
  obtain ⟨c', hc'⟩ := Option.isSome_iff_exists.mp (hgrown n (by simp [hc]))
  exact Disk.isFile_iff.mpr ⟨n, c', hfolders.find.mp hn, hc'⟩

/-- The archive of a config stands beside it. -/
theorem archive_eq (hm : m.profile.config.PlainSuffix) {init : Location} {name : String}
    (h : Location.WellSpelled (init ++ [.name name])) :
    m.archive (init ++ [.name name]) = init ++ [.name (m.profile.config.archiveName name)] :=
  PluginConfig.archivePath_path hm h

theorem here_not_mem {l : Location} (h : l.WellSpelled) : Step.here ∉ l := by
  rw [← Location.location_path h]
  exact Path.here_not_mem_location _

/-- An archive that was not there at first is there only if another config leads to
the same place. -/
theorem Carried.fileAt?_archive (hm : m.profile.config.PlainSuffix) (h : m.Carried d swaps e)
    (hspelled : ∀ r ∈ swaps, r.config.WellSpelled) {init : Location} {name : String}
    {above : List String} (hinit : d.find init = .ok above)
    (hfolder : d.entry? above = some .folder)
    (hfree : d.isFile (init ++ [.name (m.profile.config.archiveName name)]) = false)
    (hother : ∀ r ∈ swaps, d.find r.config ≠ .ok (above ++ [name])) :
    e.fileAt? (above ++ [m.profile.config.archiveName name]) = none := by
  rw [← Option.not_isSome_iff_eq_none]
  intro hsome
  rcases h.archives _ hsome with hd | ⟨r, hr, hfind⟩
  · obtain ⟨c, hc⟩ := Option.isSome_iff_exists.mp hd
    rw [(Disk.isFile_append_name hinit hfolder).mpr ⟨c, hc⟩] at hfree
    cases hfree
  · -- another archive in that place is the archive of another config in this one
    obtain ⟨init', name', above', c', hconfig, hinit', hfolder', -⟩ :=
      Disk.exists_name_of_isFile h.rooted (here_not_mem (hspelled r hr))
        (h.there _ ⟨r, hr, .inl rfl⟩)
    have hwell := hspelled r hr
    rw [hconfig] at hwell hfind
    rw [archive_eq hm hwell] at hfind
    have hfind' := h.folders.find.mp hfind
    rw [Disk.find_name hinit' hfolder'] at hfind'
    obtain ⟨rfl, hnames⟩ := List.append_inj' (Except.ok.inj hfind') rfl
    obtain rfl : name' = name :=
      PluginConfig.archiveName_injective hm (List.singleton_inj.mp hnames)
    refine hother r hr ?_
    rw [hconfig]
    exact Disk.find_name (h.folders.find.mpr hinit') ((h.folders above').mpr hfolder') name'

/-- The disk after one more swap. -/
theorem Carried.of_swapped {e' : Disk} {s : Swap} {init : Location} {name : String}
    {above : List String} {c : Content} (hm : m.profile.config.PlainSuffix)
    (h : m.Carried d swaps e) (hspelled : ∀ r ∈ swaps, r.config.WellSpelled)
    (hconfig : s.config = init ++ [.name name])
    (harchive : m.archive s.config = init ++ [.name (m.profile.config.archiveName name)])
    (hinit : e.find init = .ok above) (hfolder : e.entry? above = some .folder)
    (hfile : e.fileAt? (above ++ [name]) = some c)
    (hnew : ∀ r ∈ swaps, r.config ≠ s.config)
    (hfree : d.isFile (m.archive s.config) = false)
    (hswapped : e.Swapped (above ++ [name])
      (above ++ [m.profile.config.archiveName name]) c s.written e') :
    m.Carried d (swaps ++ [s]) e' := by
  have hfind (a : String) : e.find (init ++ [.name a]) = .ok (above ++ [a]) :=
    Disk.find_name hinit hfolder a
  have hne : above ++ [m.profile.config.archiveName name] ≠ above ++ [name] := by
    simpa using m.profile.config.archiveName_ne name
  refine ⟨h.folders.trans hswapped.folders, hswapped.rooted h.rooted, ?_,
    fun n hn => hswapped.grown (h.grown n hn), ?_, ?_⟩
  · rintro path ⟨r, hr, hpath⟩
    rcases List.mem_append.mp hr with hr | hr
    · exact isFile_of_grown hswapped.folders (fun _ => hswapped.grown)
        (h.there path ⟨r, hr, hpath⟩)
    · obtain rfl := List.mem_singleton.mp hr
      rcases hpath with rfl | rfl
      · rw [hconfig]
        exact Disk.isFile_iff.mpr
          ⟨_, _, hswapped.folders.find.mp (hfind name), hswapped.fileAt?_source⟩
      · rw [harchive]
        exact Disk.isFile_iff.mpr
          ⟨_, c, hswapped.folders.find.mp (hfind _), hswapped.fileAt?_target hne⟩
  · intro n hn
    rcases hswapped.of_isSome hfile hn with hold | rfl
    · exact (h.archives n hold).imp_right fun ⟨r, hr, hplace⟩ =>
        ⟨r, List.mem_append_left _ hr, hplace⟩
    · refine .inr ⟨s, by simp, ?_⟩
      rw [harchive]
      exact h.folders.find.mpr (hfind _)
  · intro honce n x hx
    have honce' : SpelledOnce d (swaps.map Swap.config) := by
      intro a ha b hb
      exact honce a (by simp [List.mem_map.mp ha]) b (by simp [List.mem_map.mp hb])
    have hfree' : e.fileAt? (above ++ [m.profile.config.archiveName name]) = none := by
      rw [harchive] at hfree
      refine h.fileAt?_archive hm hspelled (h.folders.find.mpr hinit)
        ((h.folders above).mpr hfolder) hfree ?_
      intro r hr hsame
      refine hnew r hr (honce _ ?_ _ ?_ _ hsame ?_)
      · exact List.mem_map_of_mem (List.mem_append_left _ hr)
      · exact List.mem_map_of_mem (by simp)
      · rw [hconfig]
        exact h.folders.find.mpr (hfind name)
    obtain ⟨g, hg, hplace⟩ := h.kept honce' n x hx
    rcases hswapped.kept hne hfile hfree' hg with hstays | ⟨-, hmoved⟩
    · exact ⟨g, hstays, hplace⟩
    · -- the archive was no file at first, since nothing is gone
      refine ⟨_, hmoved, .inr ?_⟩
      rw [← Option.not_isSome_iff_eq_none]
      intro hsome
      have := h.grown _ hsome
      simp [hfree'] at this

/-- Carrying out one more swap. -/
theorem Carried.snoc {s : Swap} (hm : m.profile.config.PlainSuffix)
    (hspelled : ∀ r ∈ swaps ++ [s], r.config.WellSpelled) (h : m.Carried d swaps e)
    (hfound : d.isFile s.config = true ∨ ∃ r ∈ swaps, s.config = m.archive r.config)
    (hnew : ∀ r ∈ swaps, r.config ≠ s.config)
    (hfree : d.isFile (m.archive s.config) = false) :
    (∃ f, (Staged.rename s.config (m.archive s.config) s.held).attempt e = (e, .error f)) ∨
      ∃ e', Staged.performAll e (m.operations [s]) = .ok e' ∧ m.Carried d (swaps ++ [s]) e' := by
  have hthere : e.isFile s.config = true := by
    rcases hfound with hfound | ⟨r, hr, heq⟩
    · exact isFile_of_grown h.folders h.grown hfound
    · exact h.there _ ⟨r, hr, .inr heq⟩
  have hwell := hspelled s (by simp)
  obtain ⟨init, name, above, c, hconfig, hinit, hfolder, hfile⟩ :=
    Disk.exists_name_of_isFile h.rooted (here_not_mem hwell) hthere
  have harchive : m.archive s.config =
      init ++ [.name (m.profile.config.archiveName name)] := by
    rw [hconfig] at hwell ⊢
    exact archive_eq hm hwell
  rcases Disk.perform_swap s.held s.written hinit hfolder hfile
    (m.profile.config.archiveName_ne name) with ⟨-, hblocked⟩ | ⟨e', hperform, hswapped⟩
  · left
    rw [harchive, hconfig]
    exact hblocked
  · refine .inr ⟨e', ?_, ?_⟩
    · simpa [operations, hconfig, ← harchive] using hperform
    · exact h.of_swapped hm (fun r hr => hspelled r (by simp [hr])) hconfig harchive hinit hfolder
        hfile hnew hfree hswapped

/-- Carrying fresh swaps out goes through, or stops at an archive that is a folder. -/
theorem performAll_operations (hm : m.profile.config.PlainSuffix) (hd : d.Rooted)
    (hfresh : m.Fresh d.isFile swaps) (hspelled : ∀ s ∈ swaps, s.config.WellSpelled) :
    (∃ e, Staged.performAll d (m.operations swaps) = .ok e ∧ m.Carried d swaps e) ∨
      ∃ before s after e f, swaps = before ++ s :: after ∧
        Staged.performAll d (m.operations before) = .ok e ∧ m.Carried d before e ∧
        (Staged.rename s.config (m.archive s.config) s.held).attempt e = (e, .error f) := by
  induction hfresh with
  | nil => exact .inl ⟨d, rfl, carried_nil hd⟩
  | @snoc swaps s _ hfound hnew hfree _ ih =>
    rcases ih fun r hr => hspelled r (by simp [hr]) with
      ⟨e, hperform, hcarried⟩ | ⟨before, r, after, e, f, rfl, hperform, hcarried, hfails⟩
    · rcases hcarried.snoc hm hspelled hfound hnew hfree with ⟨f, hfails⟩ | ⟨e', hlast, hcarried'⟩
      · exact .inr ⟨swaps, s, [], e, f, rfl, hperform, hcarried, hfails⟩
      · refine .inl ⟨e', ?_, hcarried'⟩
        rw [operations_append, Staged.performAll_append_ok hperform, hlast]
    · exact .inr ⟨before, r, after ++ [s], e, f, by simp, hperform, hcarried, hfails⟩

end Retarget.Migration
