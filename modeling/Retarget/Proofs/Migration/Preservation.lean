import Retarget.Proofs.Migration.Reports
import Retarget.Proofs.Migration.Settling
import Retarget.Proofs.Workspace.Discovery

/-!
# Original texts survive a run

A run that writes replaces old configs and documents.  Whatever an old config held is
moved to its archive, and an archive is a new file, so no content is lost but that of
the documents of migrated projects.

The one exception is an old config that a project names in two spellings.  Both are
staged as if they were two files, and when they are carried out the second archive is
put over the first.  The theorem therefore asks that no project does so.
-/

namespace Retarget.Migration

/-- A content that was under some names is still there, or in a file that is new. -/
def Kept (d : Disk) (names : List String) (c : Content) (e : Disk) : Prop :=
  ∃ g, e.fileAt? g = some c ∧ (g = names ∨ d.fileAt? g = none)

variable {m : Migration} {p : Project} {d e e' : Disk} {t : Staging} {s : State}
  {swaps : List Swap} {names : List String} {c : Content}

/-- Carrying swaps out keeps contents. -/
theorem Kept.carried (h : Kept d names c e) (hgrown : ∀ n, (d.fileAt? n).isSome →
    (e.fileAt? n).isSome) (hc : m.Carried e swaps e')
    (honce : SpelledOnce e (swaps.map Swap.config)) : Kept d names c e' := by
  obtain ⟨g, hg, hplace⟩ := h
  obtain ⟨g', hg', hplace'⟩ := hc.kept honce g c hg
  refine ⟨g', hg', ?_⟩
  rcases hplace' with rfl | hnew
  · exact hplace
  · right
    rw [← Option.not_isSome_iff_eq_none] at hnew ⊢
    exact fun hsome => hnew (hgrown g' hsome)

/-- A file of another place can be written over. -/
theorem Kept.written {n : List String} {text : String} (h : Kept d names c e)
    (hn : (d.fileAt? n).isSome) (hne : n ≠ names)
    (hfiles : ∀ k, e'.fileAt? k = if k = n then some (.text text) else e.fileAt? k) :
    Kept d names c e' := by
  obtain ⟨g, hg, hplace⟩ := h
  refine ⟨g, ?_, hplace⟩
  rw [hfiles, if_neg]
  · exact hg
  · rintro rfl
    rcases hplace with rfl | hnew
    · exact hne rfl
    · simp [hnew] at hn

/-- Swaps of old configs that are spelled once in a project. -/
theorem SpelledOnce.of_named (h : SpelledOnce d (m.configs p)) (hfolders : d.SameFolders e)
    (hnamed : ∀ s ∈ swaps, s.config ∈ m.configs p) :
    SpelledOnce e (swaps.map Swap.config) := by
  intro a ha b hb n hna hnb
  obtain ⟨r, hr, rfl⟩ := List.mem_map.mp ha
  obtain ⟨r', hr', rfl⟩ := List.mem_map.mp hb
  exact h _ (hnamed r hr) _ (hnamed r' hr') n (hfolders.find.mpr hna) (hfolders.find.mpr hnb)

/-- A step keeps contents, apart from that of a document whose project is migrated. -/
theorem kept_step (hm : m.profile.config.PlainSuffix) (hwet : m.dryRun = false)
    (hs : Settled d s.staging e) (hdoc : d.isFile p.configPath.location = true)
    (honce : SpelledOnce d (m.configs p)) :
    ∃ e', Settled d (m.step s p).staging e' ∧
      ∀ names c, Kept d names c e →
        ((m.step s p).report.Migrated p.name → d.find p.configPath.location ≠ .ok names) →
        Kept d names c e' := by
  have hdoc' := isFile_of_grown hs.folders hs.grown hdoc
  obtain ⟨e', hcarries⟩ := carries_migrateProject hm hwet hs hdoc'
    (Workspace.unitsOfProject m.profile.executor p)
  have hstep := stepped_step m s p
  generalize m.step s p = s' at hstep
  cases hstep with
  | unbound _ => exact ⟨e, hs, fun _ _ h _ => h⟩
  | failed hrun =>
    rw [hrun] at hcarries
    cases hcarries with
    | gaveUp _ hnamed _ hcarried hsettled _ =>
      exact ⟨e', hsettled, fun _ _ h _ => h.carried hs.grown hcarried
        (honce.of_named hs.folders hnamed)⟩
  | idle hrun hzero =>
    rw [hrun] at hcarries
    cases hcarries with
    | idle _ => exact ⟨e, hs, fun _ _ h _ => h⟩
    | finished _ _ _ _ _ hsome => exact absurd hzero hsome
  | migrated hrun hsome =>
    rw [hrun] at hcarries
    cases hcarries with
    | idle hzero => exact absurd hzero hsome
    | finished hnamed hcarried hdocument hfiles hsettled _ =>
      refine ⟨e', hsettled, fun names c h hother => ?_⟩
      have hplace := hs.folders.find.mpr hdocument
      obtain ⟨n, c', hn, hc'⟩ := Disk.isFile_iff.mp hdoc
      obtain rfl := Except.ok.inj (hn.symm.trans hplace)
      refine (h.carried hs.grown hcarried (honce.of_named hs.folders hnamed)).written
        (by simp [hc']) ?_ hfiles
      rintro rfl
      exact hother ⟨_, _, OrderedMap.get?_insert_self _ _ _⟩ hn

/-- All projects together keep contents. -/
theorem kept_foldl (hm : m.profile.config.PlainSuffix) (hwet : m.dryRun = false)
    {ps : List Project} (hnames : (ps.map Project.name).Nodup)
    (hdocs : ∀ p ∈ ps, d.isFile p.configPath.location = true)
    (honce : ∀ p ∈ ps, SpelledOnce d (m.configs p)) (hs : Settled d s.staging e) :
    ∃ e', Settled d (ps.foldl m.step s).staging e' ∧
      ∀ names c, Kept d names c e →
        (∀ p ∈ ps, (ps.foldl m.step s).report.Migrated p.name →
          d.find p.configPath.location ≠ .ok names) →
        Kept d names c e' := by
  induction ps generalizing s e with
  | nil => exact ⟨e, hs, fun _ _ h _ => h⟩
  | cons p ps ih =>
    obtain ⟨e₁, hs₁, hkept₁⟩ := kept_step hm hwet hs (hdocs p List.mem_cons_self)
      (honce p List.mem_cons_self)
    obtain ⟨e₂, hs₂, hkept₂⟩ := ih (List.nodup_cons.mp hnames).2
      (fun q hq => hdocs q (List.mem_cons_of_mem _ hq))
      (fun q hq => honce q (List.mem_cons_of_mem _ hq)) hs₁
    refine ⟨e₂, hs₂, fun names c h hothers => hkept₂ names c (hkept₁ names c h ?_) ?_⟩
    · -- what is reported about the first project stays
      intro hmigrated
      refine hothers p List.mem_cons_self ?_
      have hlater : ∀ q ∈ ps, q.name ≠ p.name := name_ne_of_nodup [] ps hnames
      rwa [List.foldl_cons, migrated_foldl_of_ne hlater]
    · exact fun q hq => hothers q (List.mem_cons_of_mem _ hq)

/-- A directory with two old configs and a project that names some. -/
def shelved (first second : String) : Disk :=
  ⟨[(["a"], .folder), (["a", "project.json"], .file (.text (retiredTwice first second))),
    (["a", "v.js"], .file (.text "")), (["a", "w.js"], .file (.text "// old"))]⟩

/-- The project names both. -/
def distinct : Disk :=
  shelved "a/v.js" "a/w.js"

/-- The project names one of them in two spellings. -/
def respelled : Disk :=
  shelved "a/w.js" "a/../a/w.js"

end Retarget.Migration
