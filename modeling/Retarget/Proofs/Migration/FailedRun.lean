import Retarget.Proofs.Disk.Frame
import Retarget.Proofs.Migration.Reports
import Retarget.Proofs.Migration.Settling
import Retarget.Proofs.Workspace.Discovery

/-!
# A run that fails

A run that fails has migrated nothing, so it changes no project of the workspace.  It
may still have written: a project whose flush is stopped midway is given up, but what
was carried out stays on disk.  `Uninterrupted` says that this happens to no project,
and then no file is changed, added or removed.  Otherwise there is a new file.
-/

namespace Retarget.Migration

variable {m : Migration} {p : Project} {d e : Disk} {t : Staging} {s : State} {w : Workspace}

/-- The project fails after operations of it were carried out. -/
def Interrupted (m : Migration) (s : State) (p : Project) : Prop :=
  ∃ u f, m.migrateProject s.staging p (Workspace.unitsOfProject m.profile.executor p) =
    (u, .error f) ∧ s.staging.flushed < u.flushed

/-- No project fails after operations of it were carried out. -/
def Uninterrupted (m : Migration) : State → List Project → Prop
  | _, [] => True
  | s, p :: ps => ¬m.Interrupted s p ∧ Uninterrupted m (m.step s p) ps

instance (m : Migration) (s : State) (p : Project) : Decidable (m.Interrupted s p) :=
  let run := m.migrateProject s.staging p (Workspace.unitsOfProject m.profile.executor p)
  decidable_of_iff (run.2.isOk = false ∧ s.staging.flushed < run.1.flushed) (by
    constructor
    · rintro ⟨hfails, hlt⟩
      cases hrun : run.2 with
      | error f => exact ⟨run.1, f, Prod.ext rfl hrun, hlt⟩
      | ok a => simp [hrun, Except.isOk, Except.toBool] at hfails
    · rintro ⟨u, f, hrun, hlt⟩
      have hrun' : run = (u, .error f) := hrun
      rw [hrun']
      exact ⟨rfl, hlt⟩)

instance decidableUninterrupted (m : Migration) :
    (s : State) → (ps : List Project) → Decidable (m.Uninterrupted s ps)
  | _, [] => .isTrue trivial
  | s, p :: ps =>
    have := decidableUninterrupted m (m.step s p) ps
    inferInstanceAs (Decidable (¬m.Interrupted s p ∧ m.Uninterrupted (m.step s p) ps))

/-- A project that fails uninterrupted changes no file. -/
theorem frame_of_error (hd : t.disk = some d) {us : List Unit_} {u : Staging} {f : Failure}
    (h : m.migrateProject t p us = (u, .error f)) :
    ∃ e, u.disk = some e ∧ (¬t.flushed < u.flushed → Disk.Frame (fun _ => False) d e) := by
  have hout := outcome_migrateProject m t p us
  rw [h] at hout
  cases hout with
  | failed grown => exact ⟨d, grown.disk.trans hd, fun _ => .refl _ d⟩
  | @broken v _ _ wet grown flush =>
    have hdisk : v.disk = some d := grown.disk.trans hd
    rcases Staging.flush_cases hdisk with
      ⟨e, -, hflush⟩ | ⟨done, op, rest, e, e', g, -, hdone, hfails, hflush⟩
    · simp [hflush] at flush
    · rw [hflush] at flush
      obtain ⟨rfl, -⟩ := Prod.mk.inj flush
      refine ⟨e', rfl, fun hflushed => ?_⟩
      -- nothing was carried out before the operation that failed
      rw [grown.flushed] at hflushed
      have hnil : done = [] := List.eq_nil_of_length_eq_zero (by dsimp only at hflushed; omega)
      subst hnil
      obtain rfl : d = e := by simpa [Staged.performAll, pure, Except.pure] using hdone
      exact Staged.frame_attempt_error hfails

/-- A step that migrates nothing changes no project, and no file either unless it is
interrupted. -/
theorem step_of_migrated_eq_zero (hd : s.staging.disk = some d)
    (hzero : (m.step s p).report.migrated = 0) :
    (m.step s p).workspace = s.workspace ∧
      ∃ e, (m.step s p).staging.disk = some e ∧
        (¬m.Interrupted s p → Disk.Frame (fun _ => False) d e) := by
  have hstep := stepped_step m s p
  generalize m.step s p = s' at hzero hstep
  cases hstep with
  | unbound _ => exact ⟨rfl, d, hd, fun _ => .refl _ d⟩
  | @failed u f hrun =>
    obtain ⟨e, he, hframe⟩ := frame_of_error hd hrun
    refine ⟨rfl, e, (u.rollback_disk _).trans he, fun hnot => hframe fun hlt => ?_⟩
    exact hnot ⟨u, f, hrun, hlt⟩
  | idle hrun hnone =>
    have hout := outcome_migrateProject m s.staging p
      (Workspace.unitsOfProject m.profile.executor p)
    rw [hrun] at hout
    cases hout with
    | idle _ => exact ⟨rfl, d, hd, fun _ => .refl _ d⟩
    | staged _ _ hsome _ => exact absurd hnone hsome
    | flushed _ _ hsome _ _ => exact absurd hnone hsome
  | migrated _ hsome =>
    simp only [Report.addMigrated] at hzero
    omega

/-- The same for all projects of a run. -/
theorem foldl_of_migrated_eq_zero {ps : List Project} (hd : s.staging.disk = some d)
    (hzero : (ps.foldl m.step s).report.migrated = 0) :
    (ps.foldl m.step s).workspace = s.workspace ∧
      ∃ e, (ps.foldl m.step s).staging.disk = some e ∧
        (m.Uninterrupted s ps → Disk.Frame (fun _ => False) d e) := by
  induction ps generalizing s d with
  | nil => exact ⟨rfl, d, hd, fun _ => .refl _ d⟩
  | cons p ps ih =>
    rw [List.foldl_cons] at hzero ⊢
    have hzero' : (m.step s p).report.migrated = 0 := by
      have := migrated_le_foldl m (m.step s p) ps
      omega
    obtain ⟨hworkspace, e, he, hframe⟩ := step_of_migrated_eq_zero hd hzero'
    obtain ⟨hworkspace', e', he', hframe'⟩ := ih he hzero
    exact ⟨hworkspace'.trans hworkspace, e', he', fun h => (hframe h.1).trans (hframe' h.2)⟩

/-! ## An interruption leaves a new file -/

theorem not_interrupted (hs : m.StagesOnly s.staging) (p : Project) : ¬m.Interrupted s p := by
  rintro ⟨u, f, hrun, hlt⟩
  rw [(grown_of_error hs hrun).flushed] at hlt
  omega

/-- Where nothing is flushed to a disk nothing is interrupted. -/
theorem uninterrupted_of_stagesOnly (hs : m.StagesOnly s.staging) (ps : List Project) :
    m.Uninterrupted s ps := by
  induction ps generalizing s with
  | nil => trivial
  | cons p ps ih => exact ⟨not_interrupted hs p, ih (hs.step p)⟩

/-- Swaps that were carried out leave an archive that was not there. -/
theorem exists_new_of_carried {swaps : List Swap} (h : m.Carried d swaps e) (hne : swaps ≠ [])
    (hfree : ∀ s ∈ swaps, d.isFile (m.archive s.config) = false) :
    ∃ n, d.fileAt? n = none ∧ (e.fileAt? n).isSome := by
  obtain ⟨s, rest, rfl⟩ := List.exists_cons_of_ne_nil hne
  obtain ⟨n, c, hn, hc⟩ := Disk.isFile_iff.mp (h.there _ ⟨s, by simp, .inr rfl⟩)
  refine ⟨n, ?_, by simp [hc]⟩
  rw [← Option.not_isSome_iff_eq_none]
  intro hsome
  obtain ⟨c', hc'⟩ := Option.isSome_iff_exists.mp hsome
  have hthere := Disk.isFile_iff.mpr ⟨n, c', h.folders.find.mpr hn, hc'⟩
  simp [hfree s (by simp)] at hthere

/-- A step that migrates nothing leaves a new file if it is interrupted, and no file is gone. -/
theorem exists_new_of_step (hm : m.profile.config.PlainSuffix) (hwet : m.dryRun = false)
    (hdoc : d.isFile p.configPath.location = true) (hs : Settled d s.staging e)
    (hzero : (m.step s p).report.migrated = 0) :
    ∃ e', Settled d (m.step s p).staging e' ∧
      (∀ n, (e.fileAt? n).isSome → (e'.fileAt? n).isSome) ∧
      (m.Interrupted s p → ∃ n, e.fileAt? n = none ∧ (e'.fileAt? n).isSome) := by
  have hdoc' := isFile_of_grown hs.folders hs.grown hdoc
  obtain ⟨e₁, hcarries⟩ := carries_migrateProject hm hwet hs hdoc'
    (Workspace.unitsOfProject m.profile.executor p)
  have hstep := stepped_step m s p
  generalize m.step s p = s' at hzero hstep
  cases hstep with
  | unbound hnone =>
    refine ⟨e, hs, fun _ h => h, ?_⟩
    rintro ⟨u, f, hrun, -⟩
    rw [List.isEmpty_iff] at hnone
    simp [hnone, migrateProject, migrateUnits, Work.start] at hrun
  | failed hrun =>
    rw [hrun] at hcarries
    cases hcarries with
    | gaveUp _ _ hfree hcarried hsettled hinterrupted =>
      refine ⟨e₁, hsettled, hcarried.grown, ?_⟩
      rintro ⟨u, f, hrun', hlt⟩
      obtain ⟨rfl, -⟩ := Prod.mk.inj (hrun.symm.trans hrun')
      exact exists_new_of_carried hcarried (hinterrupted.mp hlt) hfree
  | idle hrun hnone =>
    have hnot : ¬m.Interrupted s p := by
      rintro ⟨u, f, hrun', -⟩
      rw [hrun] at hrun'
      cases hrun'
    rw [hrun] at hcarries
    cases hcarries with
    | idle _ => exact ⟨e, hs, fun _ h => h, fun h => absurd h hnot⟩
    | finished _ _ _ _ _ hsome => exact absurd hnone hsome
  | migrated _ hsome =>
    simp only [Report.addMigrated] at hzero
    omega

/-- In a run that migrates nothing every interruption leaves a new file. -/
theorem exists_new_of_interrupted (hm : m.profile.config.PlainSuffix) (hwet : m.dryRun = false)
    {ps : List Project} (hdocs : ∀ p ∈ ps, d.isFile p.configPath.location = true)
    (hs : Settled d s.staging e) (hzero : (ps.foldl m.step s).report.migrated = 0) :
    ∃ e', (ps.foldl m.step s).staging.disk = some e' ∧
      (∀ n, (e.fileAt? n).isSome → (e'.fileAt? n).isSome) ∧
      (¬m.Uninterrupted s ps → ∃ n, e.fileAt? n = none ∧ (e'.fileAt? n).isSome) := by
  induction ps generalizing s e with
  | nil => exact ⟨e, hs.disk, fun _ h => h, fun h => absurd trivial h⟩
  | cons p ps ih =>
    rw [List.foldl_cons] at hzero ⊢
    have hzero' : (m.step s p).report.migrated = 0 := by
      have := migrated_le_foldl m (m.step s p) ps
      omega
    obtain ⟨e₁, hs₁, hgrown₁, hnew₁⟩ :=
      exists_new_of_step hm hwet (hdocs p List.mem_cons_self) hs hzero'
    obtain ⟨e₂, he₂, hgrown₂, hnew₂⟩ := ih (fun q hq => hdocs q (List.mem_cons_of_mem _ hq))
      hs₁ hzero
    refine ⟨e₂, he₂, fun n hn => hgrown₂ n (hgrown₁ n hn), fun hnot => ?_⟩
    by_cases hp : m.Interrupted s p
    · obtain ⟨n, hn, hsome⟩ := hnew₁ hp
      exact ⟨n, hn, hgrown₂ n hsome⟩
    · obtain ⟨n, hn, hsome⟩ := hnew₂ fun hrest => hnot ⟨hp, hrest⟩
      refine ⟨n, ?_, hsome⟩
      rw [← Option.not_isSome_iff_eq_none] at hn ⊢
      exact fun h => hn (hgrown₁ n h)

/-! ## The whole run -/

/-- Formatting is for runs that succeed. -/
theorem runWith_of_error {fmt : Option Formatter} {f : Failure}
    (h : (m.runWith fmt t w).result = .error f) :
    m.runWith fmt t w = m.run t w ∧ (m.run t w).result = .error f := by
  cases fmt with
  | none => exact ⟨rfl, h⟩
  | some fmt =>
    unfold runWith format at h ⊢
    dsimp only at h ⊢
    split at h
    · next hok hdisk =>
      split at h
      · next hdry => rw [hok] at h; cases h
      · cases h
    · exact ⟨rfl, h⟩

/-- A run that fails went through all projects in scope and migrated none. -/
theorem run_of_error {f : Failure} (h : (m.run t w).result = .error f) :
    (m.run t w).staging = ((w.inScope m.project).foldl m.step (m.begin t w)).staging ∧
      (m.run t w).workspace = ((w.inScope m.project).foldl m.step (m.begin t w)).workspace ∧
      ((w.inScope m.project).foldl m.step (m.begin t w)).report.migrated = 0 := by
  rcases run_cases m t w with ⟨name, hproject, hnone, hrun⟩ | hrun
  · rw [hrun, hproject, Workspace.inScope_of_project?_eq_none hnone]
    exact ⟨rfl, rfl, rfl⟩
  · rw [hrun, finish_eq] at h ⊢
    refine ⟨rfl, rfl, ?_⟩
    dsimp only at h
    split at h
    · cases h
    · next hnot => simpa [Report.succeeded] using hnot

/-- A run that fails changes no project, and no file either if none of its projects was
interrupted.  With a profile that is valid this is the only way not to change a file. -/
theorem failed_run_changes_nothing_iff (m : Migration) (fmt : Option Formatter) (d : Disk)
    (w : Workspace) (f : Failure) (hd : d.WellFormed)
    (hw : Workspace.discover (.open d) = .ok w)
    (hf : (m.runWith fmt (.open d) w).result = .error f) :
    (m.runWith fmt (.open d) w).workspace = w ∧
      ∃ e, (m.runWith fmt (.open d) w).staging.disk = some e ∧
        (m.Uninterrupted (m.begin (.open d) w) (w.inScope m.project) →
          ∀ n, e.fileAt? n = d.fileAt? n) ∧
        (m.profile.validate = .ok () → (∀ n, e.fileAt? n = d.fileAt? n) →
          m.Uninterrupted (m.begin (.open d) w) (w.inScope m.project)) := by
  obtain ⟨hsame, hf'⟩ := runWith_of_error hf
  obtain ⟨hstaging, hworkspace, hzero⟩ := run_of_error hf'
  rw [hsame, hstaging, hworkspace]
  obtain ⟨hkept, e, he, hframe⟩ := foldl_of_migrated_eq_zero (d := d) rfl hzero
  refine ⟨hkept, e, he, fun hnone n => (hframe hnone).files n id, fun hvalid hfiles => ?_⟩
  by_contra hnot
  -- a dry run carries nothing out, so there is something to be interrupted
  have hwet : m.dryRun = false := by
    rw [Bool.eq_false_iff]
    exact fun hdry => hnot (uninterrupted_of_stagesOnly (.inl hdry) _)
  have hdocumented := Workspace.documented_of_discover hd hw
  have hdocs : ∀ p ∈ w.inScope m.project, d.isFile p.configPath.location = true := fun p hp =>
    hdocumented.documents p (Workspace.mem_of_mem_inScope hp)
  obtain ⟨e', he', -, hnew⟩ := exists_new_of_interrupted (d := d)
    (Profile.plainSuffix_of_validate hvalid) hwet hdocs (settled_open hd.rooted) hzero
  obtain rfl := Option.some.inj (he.symm.trans he')
  obtain ⟨n, hn, hsome⟩ := hnew hnot
  rw [hfiles n, hn] at hsome
  cases hsome

/-- A directory in which a folder is in the way of the second archive of a project. -/
def blocked : Disk :=
  ⟨[(["a"], .folder), (["a", "project.json"], .file (.text (retiredTwice "a/v.js" "a/w.js"))),
    (["a", "v.js"], .file (.text "")), (["a", "w.js"], .file (.text "")),
    (["a", "w.old.js"], .folder)]⟩

/-- The run fails, and it leaves the first archive. -/
theorem run_blocked :
    (retire.runWith none (.open blocked) (.found blocked)).result.map (fun _ => ()) =
        .error .nothingMigrated ∧
      ((retire.runWith none (.open blocked) (.found blocked)).staging.disk.map
        fun e => e.fileAt? ["a", "v.old.js"]) = some (some (.text "")) := by
  decide +kernel

theorem failed_run_leaves_archive :
    (retire.runWith none (.open blocked) (.found blocked)).result = .error .nothingMigrated ∧
      ∃ e, (retire.runWith none (.open blocked) (.found blocked)).staging.disk = some e ∧
        e.fileAt? ["a", "v.old.js"] ≠ blocked.fileAt? ["a", "v.old.js"] := by
  obtain ⟨hfails, hleft⟩ := run_blocked
  obtain ⟨e, he, hfile⟩ := Option.map_eq_some_iff.mp hleft
  refine ⟨eq_error_of_map hfails, e, he, ?_⟩
  rw [hfile]
  decide

theorem failed_run_changes_nothing_iff_blocked :
    (retire.runWith none (.open blocked) (.found blocked)).workspace = .found blocked ∧
      ¬retire.Uninterrupted (retire.begin (.open blocked) (.found blocked))
        ((Workspace.found blocked).inScope retire.project) := by
  obtain ⟨hfails, hleft⟩ := run_blocked
  obtain ⟨hworkspace, e, he, hsame, -⟩ := failed_run_changes_nothing_iff retire none blocked
    (.found blocked) .nothingMigrated (Disk.wellFormed_of_entries (by decide +kernel))
    (Workspace.discover_eq_found (by decide +kernel)) (eq_error_of_map hfails)
  refine ⟨hworkspace, mt hsame fun hfiles => ?_⟩
  -- the archive is a file that was not there
  obtain ⟨e', he', hfile⟩ := Option.map_eq_some_iff.mp hleft
  obtain rfl := Option.some.inj (he.symm.trans he')
  exact absurd ((hfiles _).symm.trans hfile) (by decide)

end Retarget.Migration
