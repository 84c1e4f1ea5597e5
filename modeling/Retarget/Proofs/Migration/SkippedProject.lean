import Retarget.Proofs.Migration.FailedRun
import Retarget.Proofs.Staging.Advancing

/-!
# A project that is skipped

A run stages and carries out operations on the footprints of the projects that it
reports as migrated, and on no other paths.  A project that it skips stays what it was,
and so do the texts of its document and of its old configs, apart from those that a
migrated project has on its own footprint.

On a disk two paths can lead to one file, and what was pending before the run is carried
out with it.  `Spared` therefore asks where a path leads.
-/

namespace Retarget.Migration

variable {m : Migration} {p q : Project} {d e : Disk} {t u : Staging} {s s' s'' : State}
  {w : Workspace} {S T : Location → Prop}

/-! ## How far a run gets -/

/-- From one state to another by operations on paths in `S`.  What is reported as written
are paths of operations that were carried out on the way. -/
structure Progress (S : Location → Prop) (s s' : State) : Prop where
  staging : Staging.Advanced S s.staging s'.staging
  written : ∀ x ∈ s'.report.written, x ∈ s.report.written ∨
    ∃ op ∈ s'.staging.log.drop s.staging.flushed, ∃ y ∈ op.paths, x = y.path

theorem Progress.refl (S : Location → Prop) (s : State) : Progress S s s :=
  ⟨.refl S s.staging, fun _ hx => .inl hx⟩

theorem Progress.mono (h : Progress S s s') (sub : ∀ x, S x → T x) : Progress T s s' :=
  ⟨h.staging.mono sub, h.written⟩

theorem Progress.trans (h : Progress S s s') (k : Progress S s' s'') : Progress S s s'' where
  staging := h.staging.trans k.staging
  written := by
    intro x hx
    rcases k.written x hx with hx | ⟨op, hop, hpath⟩
    · rcases h.written x hx with hx | ⟨op, hop, hpath⟩
      · exact .inl hx
      · exact .inr ⟨op, k.staging.mem_drop hop, hpath⟩
    · exact .inr ⟨op, List.drop_subset_drop_left _ h.staging.flushed hop, hpath⟩

/-- Migrating a project stages and carries out operations on its footprint. -/
theorem advanced_migrateProject (m : Migration) (t : Staging) (p : Project) (us : List Unit_) :
    Staging.Advanced (· ∈ m.footprint p) t (m.migrateProject t p us).1 := by
  have hreach : Staging.Advanced (· ∈ m.reach p) t (m.migrateProject t p us).1 := by
    have hout := outcome_migrateProject m t p us
    generalize m.migrateProject t p us = run at hout
    cases hout with
    | failed grown => exact grown.advanced
    | idle _ => exact .refl _ t
    | staged _ grown _ _ => exact grown.advanced
    | @broken u _ _ _ grown flush =>
      have hflush := Staging.advanced_flush (· ∈ m.reach p) u
      rw [flush] at hflush
      exact grown.advanced.trans hflush
    | @flushed u _ _ _ _ grown _ _ flush =>
      have hflush := Staging.advanced_flush (· ∈ m.reach p) u
      rw [flush] at hflush
      exact grown.advanced.trans hflush
  exact hreach.mono fun _ => mem_footprint_of_reach

/-- What the migration of a project gives as written. -/
theorem mem_written {us : List Unit_} {x : Work} {written : List Location} {y : Location}
    (h : m.migrateProject t p us = (u, .ok (x, written))) (hy : y ∈ written) :
    ∃ op ∈ u.log.drop t.flushed, y ∈ op.paths := by
  have hout := outcome_migrateProject m t p us
  rw [h] at hout
  cases hout with
  | idle _ => cases hy
  | staged _ _ _ _ => cases hy
  | flushed _ grown _ _ flush =>
    rw [← grown.flushed]
    exact Staging.mem_of_flush flush hy

/-- A project that fails uninterrupted is taken back. -/
theorem advanced_of_error (ht : t.Coherent) {us : List Unit_} {f : Failure}
    (h : m.migrateProject t p us = (u, .error f)) (hnot : ¬t.flushed < u.flushed) :
    Staging.Advanced S t (u.rollback t.mark) := by
  have hadvanced := advanced_migrateProject m t p us
  rw [h] at hadvanced
  refine hadvanced.rollback ht hnot fun d hd => ?_
  obtain ⟨e, he, hframe⟩ := frame_of_error hd h
  exact ⟨e, he, hframe hnot⟩

/-- A step touches the footprint of its project if it migrates it, and nothing else. -/
theorem progress_step (hs : s.staging.Coherent) (hnot : ¬m.Interrupted s p) :
    Progress (fun x => (m.step s p).report.Migrated p.name ∧ x ∈ m.footprint p) s
      (m.step s p) := by
  have hstep := stepped_step m s p
  generalize m.step s p = s' at hstep
  cases hstep with
  | unbound _ => exact .refl _ s
  | failed hrun =>
    have hflushed : ¬s.staging.flushed < _ := fun hlt => hnot ⟨_, _, hrun, hlt⟩
    exact ⟨advanced_of_error hs hrun hflushed, fun _ hx => .inl hx⟩
  | idle hrun hzero =>
    have hout := outcome_migrateProject m s.staging p
      (Workspace.unitsOfProject m.profile.executor p)
    rw [hrun] at hout
    cases hout with
    | idle _ => exact ⟨.refl _ _, fun x hx => .inl (by simpa [Report.addSkipped] using hx)⟩
    | staged _ _ hsome _ => exact absurd hzero hsome
    | flushed _ _ hsome _ _ => exact absurd hzero hsome
  | migrated hrun hsome =>
    have hadvanced := advanced_migrateProject m s.staging p
      (Workspace.unitsOfProject m.profile.executor p)
    rw [hrun] at hadvanced
    refine ⟨hadvanced.mono fun x hx => ⟨⟨_, _, OrderedMap.get?_insert_self _ _ _⟩, hx⟩, ?_⟩
    intro x hx
    rcases List.mem_append.mp hx with hx | hx
    · exact .inl hx
    · obtain ⟨y, hy, rfl⟩ := List.mem_map.mp hx
      obtain ⟨op, hop, hpath⟩ := mem_written hrun hy
      exact .inr ⟨op, hop, y, hpath, rfl⟩

/-- A run touches the footprints of the projects that it migrates, and nothing else. -/
theorem progress_foldl {ps : List Project} (hs : s.staging.Coherent)
    (hnot : m.Uninterrupted s ps) (hnames : (ps.map Project.name).Nodup) :
    Progress (fun x => ∃ p ∈ ps, (ps.foldl m.step s).report.Migrated p.name ∧
      x ∈ m.footprint p) s (ps.foldl m.step s) := by
  induction ps generalizing s with
  | nil => exact .refl _ s
  | cons p ps ih =>
    have hlater : ∀ q ∈ ps, q.name ≠ p.name := name_ne_of_nodup [] ps hnames
    rw [List.foldl_cons]
    refine ((progress_step hs hnot.1).mono ?_).trans
      ((ih (coherent_step hs p) hnot.2 (List.nodup_cons.mp hnames).2).mono ?_)
    · rintro x ⟨hmigrated, hx⟩
      exact ⟨p, List.mem_cons_self, (migrated_foldl_of_ne hlater).mpr hmigrated, hx⟩
    · rintro x ⟨q, hq, hmigrated, hx⟩
      exact ⟨q, List.mem_cons_of_mem _ hq, hmigrated, hx⟩

/-! ## The end of a run -/

/-- Whether it is a dry run is noted in the report. -/
theorem dryRun_foldl (m : Migration) (s : State) (ps : List Project) :
    (ps.foldl m.step s).report.dryRun = s.report.dryRun := by
  induction ps generalizing s with
  | nil => rfl
  | cons p ps ih =>
    have hstep := stepped_step m s p
    rw [List.foldl_cons, ih]
    generalize m.step s p = s' at hstep
    cases hstep with
    | unbound _ => rfl
    | failed _ => rfl
    | idle _ _ => rfl
    | migrated _ _ => rfl

/-- A run that succeeds went through all projects in scope. -/
theorem run_of_ok {report : Report} (h : (m.run t w).result = .ok report)
    (hs : s = (w.inScope m.project).foldl m.step (m.begin t w)) :
    m.run t w = ⟨s.staging, s.workspace, .ok report⟩ ∧
      report = { s.report with lineCount := countChanges s.staging } := by
  rcases run_cases m t w with ⟨name, -, -, hrun⟩ | hrun
  · rw [hrun] at h
    cases h
  · rw [hrun, ← hs, finish_eq] at h ⊢
    dsimp only at h
    split at h
    · next hsucceeded =>
      obtain rfl := Except.ok.inj h
      exact ⟨by simp [hsucceeded], rfl⟩
    · cases h

/-- Formatting changes at most the disk, and that only if the run was not dry. -/
theorem format_of_ok {f : Formatter} {r : Run} {report report' : Report}
    (hr : r.result = .ok report) (h : (format f r).result = .ok report') :
    report'.projects = report.projects ∧ (format f r).workspace = r.workspace ∧
      ((format f r).staging = r.staging ∨
        report.dryRun = false ∧ ∃ d, r.staging.disk = some d ∧
          (format f r).staging = { r.staging with disk := some (f d report.written).1 }) := by
  obtain ⟨staging, workspace, result⟩ := r
  obtain rfl : result = .ok report := hr
  unfold format at h ⊢
  cases hdisk : staging.disk with
  | none =>
    simp only [hdisk] at h
    obtain rfl := Except.ok.inj h
    simp
  | some d =>
    simp only [hdisk] at h ⊢
    by_cases hdry : report.dryRun = true
    · rw [if_pos hdry] at h ⊢
      obtain rfl := Except.ok.inj h
      exact ⟨rfl, rfl, .inl rfl⟩
    · rw [if_neg hdry] at h ⊢
      obtain rfl := Except.ok.inj h
      refine ⟨?_, rfl, .inr ⟨by simpa using hdry, d, rfl, rfl⟩⟩
      split
      · rfl
      · rfl

/-- The end of a run with a formatter. -/
theorem runWith_of_ok {fmt : Option Formatter} {report : Report}
    (h : (m.runWith fmt t w).result = .ok report)
    (hs : s = (w.inScope m.project).foldl m.step (m.begin t w)) :
    report.projects = s.report.projects ∧ (m.runWith fmt t w).workspace = s.workspace ∧
      ((m.runWith fmt t w).staging = s.staging ∨
        m.dryRun = false ∧ ∃ f d, fmt = some f ∧ s.staging.disk = some d ∧
          (m.runWith fmt t w).staging =
            { s.staging with disk := some (f d s.report.written).1 }) := by
  cases fmt with
  | none =>
    obtain ⟨hrun, rfl⟩ := run_of_ok h hs
    unfold runWith
    dsimp only
    rw [hrun]
    exact ⟨rfl, rfl, .inl rfl⟩
  | some f =>
    cases hresult : (m.run t w).result with
    | error g =>
      unfold runWith format at h
      simp [hresult] at h
    | ok report' =>
      obtain ⟨hprojects, hworkspace, hstaging⟩ := format_of_ok hresult h
      obtain ⟨hrun, rfl⟩ := run_of_ok hresult hs
      rw [hrun] at hworkspace hstaging
      have hdry : s.report.dryRun = m.dryRun := by
        rw [hs, dryRun_foldl]
        rfl
      unfold runWith
      dsimp only
      rw [hrun]
      refine ⟨hprojects, hworkspace, hstaging.imp_right ?_⟩
      rintro ⟨hwet, d, hd, hformatted⟩
      exact ⟨hdry.symm.trans hwet, f, d, rfl, hd, hformatted⟩

/-! ## What a run leaves alone -/

/-- A formatter changes the files that it is given, and no others. -/
def OnlyGiven (f : Formatter) : Prop :=
  ∀ d ps, Disk.Frame (fun n => ∃ q ∈ ps, Location.resolve q.location = some n) d (f d ps).1

/-- A path is on the footprint of a project that is reported as migrated. -/
def Touched (m : Migration) (w : Workspace) (report : Report) (x : Location) : Prop :=
  ∃ p ∈ w.projects, report.Migrated p.name ∧ x ∈ m.footprint p

/-- A run does not reach the file that a path leads to on a disk. -/
structure Spared (m : Migration) (fmt : Option Formatter) (t : Staging) (w : Workspace)
    (report : Report) (x : Location) : Prop where
  /-- no project stops midway -/
  uninterrupted : m.Uninterrupted (m.begin t w) (w.inScope m.project)
  formatter : ∀ f, fmt = some f → OnlyGiven f
  /-- something was staged on the path before, or nothing that is pending or touched leads
  where the path leads -/
  place : t.overlay.has x = true ∨ ∃ d, t.disk = some d ∧ d.Rooted ∧
    d.Avoids (fun n => t.Fresh t n ∨ ∃ y, m.Touched w report y ∧ Location.resolve y = some n) x

/-- Footprints are well spelled. -/
theorem wellSpelled_of_mem_footprint {x : Location} (h : x ∈ m.footprint p) : x.WellSpelled := by
  rcases List.mem_cons.mp h with rfl | h
  · exact Path.wellSpelled_location _
  · rcases List.mem_append.mp h with h | h
    · exact wellSpelled_of_mem_configs h
    · obtain ⟨config, -, rfl⟩ := List.mem_map.mp h
      exact Path.wellSpelled_location _

/-- What is reported as written leads to places of operations that were carried out. -/
theorem Progress.fresh_of_written (h : Progress S s s') (hs : s.staging.Reachable)
    (hS : ∀ x, S x → x.WellSpelled) (hnone : s.report.written = []) {n : List String}
    (hn : ∃ q ∈ s'.report.written, Location.resolve q.location = some n) :
    s.staging.Fresh s'.staging n := by
  obtain ⟨q, hq, hqn⟩ := hn
  rcases h.written q hq with hq | ⟨op, hop, y, hy, rfl⟩
  · rw [hnone] at hq
    cases hq
  · refine ⟨op, hop, y, hy, ?_⟩
    have hwell : y.WellSpelled := by
      obtain ⟨ops, hops, hpaths⟩ := h.staging.log
      have hmem := List.mem_of_mem_drop hop
      rw [hops] at hmem
      rcases List.mem_append.mp hmem with hmem | hmem
      · exact hs.wellSpelled op hmem y hy
      · exact hS y (hpaths op hmem y hy)
    rwa [Location.location_path hwell] at hqn

/-- A run does not change what is read at a path that is on no footprint of a project that
it migrates. -/
theorem read_runWith {fmt : Option Formatter} {report : Report} {x : Location}
    (ht : t.Reachable) (hnames : (w.projects.map Project.name).Nodup)
    (h : (m.runWith fmt t w).result = .ok report)
    (hx : ¬m.Touched w report x) (hdisk : m.StagesOnly t ∨ m.Spared fmt t w report x) :
    (m.runWith fmt t w).staging.read x = t.read x := by
  obtain ⟨s, hs⟩ : ∃ s, s = (w.inScope m.project).foldl m.step (m.begin t w) := ⟨_, rfl⟩
  obtain ⟨hprojects, -, hstaging⟩ := runWith_of_ok h hs
  have hnot : m.Uninterrupted (m.begin t w) (w.inScope m.project) := by
    rcases hdisk with honly | hspared
    · exact uninterrupted_of_stagesOnly honly _
    · exact hspared.uninterrupted
  have hprogress := progress_foldl (s := m.begin t w) ht.coherent hnot
    (Workspace.nodup_inScope hnames m.project)
  have hcoherent := coherent_foldl (m := m) (s := m.begin t w) ht.coherent
    (w.inScope m.project)
  rw [← hs] at hprogress hcoherent
  -- a path that the run stages something on is on a footprint
  have htouched : ∀ y, (∃ p ∈ w.inScope m.project, s.report.Migrated p.name ∧
      y ∈ m.footprint p) → m.Touched w report y := by
    rintro y ⟨p, hp, ⟨units, config, hentry⟩, hy⟩
    exact ⟨p, Workspace.mem_of_mem_inScope hp, ⟨units, config, hprojects ▸ hentry⟩, hy⟩
  have hadvanced := hprogress.staging.mono htouched
  rcases hdisk with honly | hspared
  · have hsame : s.staging.disk = t.disk := by
      rw [hs]
      exact disk_foldl (s := m.begin t w) honly _
    rcases hstaging with hstaging | ⟨hwet, f, d, -, hd, -⟩
    · rw [hstaging]
      exact hadvanced.read ht.coherent hcoherent hx (.inr (.inl hsame))
    · -- there is nothing that a formatter could change
      have hnone : t.disk = none := honly.resolve_left (by simp [hwet])
      rw [hsame, hnone] at hd
      cases hd
  · have hplace : ∀ {u : Staging}, Staging.Advanced (m.Touched w report) t u →
        t.overlay.has x = true ∨ u.disk = t.disk ∨
          ∃ d, t.disk = some d ∧ d.Rooted ∧ d.Avoids (t.Fresh u) x := by
      intro u hu
      rcases hspared.place with hhas | ⟨d, hd, hrooted, havoids⟩
      · exact .inl hhas
      · refine .inr (.inr ⟨d, hd, hrooted, havoids.mono fun n hn => ?_⟩)
        exact hu.fresh hn
    rcases hstaging with hstaging | ⟨-, f, d, hf, hd, hstaging⟩
    · rw [hstaging]
      exact hadvanced.read ht.coherent hcoherent hx (hplace hadvanced)
    · rw [hstaging]
      have hframe : Disk.Frame (t.Fresh s.staging) d (f d s.report.written).1 := by
        refine (hspared.formatter f hf d s.report.written).mono fun n hn => ?_
        refine hprogress.fresh_of_written ht ?_ rfl hn
        rintro y ⟨p, -, -, hy⟩
        exact wellSpelled_of_mem_footprint hy
      have hadvanced' := hadvanced.disturb hd hframe
      exact hadvanced'.read ht.coherent
        ⟨hcoherent.overlay_eq, hcoherent.flushed_le, hcoherent.seen⟩ hx (hplace hadvanced')

/-- A directory with the old configs of two projects. -/
def store : Disk :=
  ⟨[(["a"], .folder), (["a", "v.json"], .file (.text "")), (["b"], .folder),
    (["b", "w.js"], .file (.text ""))]⟩

/-- A project whose old config is in no known language. -/
def unread : Project :=
  (Project.ofRoot "a" ⟨"a"⟩).setTarget "build" (retired "a/v.json")

/-- A project that is migrated. -/
def legible : Project :=
  (Project.ofRoot "b" ⟨"b"⟩).setTarget "build" (retired "b/w.js")

/-- A formatter that finds everything in order. -/
def approving : Formatter :=
  fun d ps => (d, .ok ps.length)

end Retarget.Migration
