import Retarget.Proofs.Migration.Footprint

/-!
# What comes of migrating a project

The work on a project is followed unit by unit.  `Tracks` is the invariant: the
work is about the project, and its targets name no old config that they did not
name before.  So a project stages operations on paths that it can get to.

`prepare` is the work on a whole project without the flush at its end, and
`Outcome` lists what can come of the whole project.
-/

namespace Retarget.Migration

variable {m : Migration} {p : Project} {t u v : Staging} {w x : Work} {s : State}

/-! ## Going through units -/

/-- What every unit keeps is kept by all of them. -/
theorem migrateUnits_induction {P : Staging → Work → Prop}
    (step : ∀ t w b v x, P t w → m.migrateUnit t w b = (v, .ok x) → P v x) {us : List Unit_}
    (ht : P t w) (h : m.migrateUnits t w us = (v, .ok x)) : P v x := by
  induction us generalizing t w with
  | nil =>
    obtain ⟨rfl, rfl⟩ := by simpa [migrateUnits] using h
    exact ht
  | cons b us ih =>
    unfold migrateUnits at h
    split at h
    · simp at h
    · next hb => exact ih (step _ _ _ _ _ ht hb) h

/-- Work on a project whose targets name no new old configs. -/
structure Tracks (m : Migration) (p : Project) (w : Work) : Prop where
  name : w.project.name = p.name
  configPath : w.project.configPath = p.configPath
  named : ∀ n target, OrderedMap.get? w.project.targets n = some target →
    ∀ config, m.oldConfig? target = some config → config ∈ m.oldConfigs p

theorem tracks_start (m : Migration) (p : Project) : m.Tracks p (.start p) :=
  ⟨rfl, rfl, fun _ _ ht _ hl => mem_oldConfigs ht hl⟩

theorem Tracks.migrateUnit (hw : m.Tracks p w) {b : Unit_}
    (h : m.migrateUnit t w b = (v, .ok x)) : m.Tracks p x := by
  rcases migrateUnit_ok h with ⟨-, hproject, -⟩ |
    ⟨target, target', htarget, hproject, hlegacy, -⟩
  · exact ⟨by rw [hproject, hw.name], by rw [hproject, hw.configPath], by
      rw [hproject]; exact hw.named⟩
  · refine ⟨by rw [hproject]; exact hw.name, by rw [hproject]; exact hw.configPath, ?_⟩
    rw [hproject]
    intro n other hother config hconfig
    simp only [Project.setTarget, OrderedMap.get?_insert] at hother
    by_cases hn : n = b.target
    · -- the target of the unit names what it named before, if anything
      obtain rfl : target' = other := by simpa [hn] using hother
      rcases hlegacy with hnone | hsame
      · simp [hnone] at hconfig
      · exact hw.named _ _ htarget config (by rw [← hsame]; exact hconfig)
    · exact hw.named n other (by simpa [hn] using hother) config hconfig

theorem Tracks.migrateUnits (hw : m.Tracks p w) {us : List Unit_}
    (h : m.migrateUnits t w us = (v, .ok x)) : m.Tracks p x :=
  migrateUnits_induction (P := fun _ w => m.Tracks p w)
    (fun _ _ _ _ _ hw hb => hw.migrateUnit hb) hw h

/-- A unit touches paths that its project can get to. -/
theorem grown_migrateUnit (hw : m.Tracks p w) (b : Unit_) :
    Staging.Grown (· ∈ m.reach p) t (m.migrateUnit t w b).1 := by
  unfold Migration.migrateUnit
  split
  · exact .refl _ t
  · next target htarget =>
    split
    · exact .refl _ t
    · exact .refl _ t
    · split
      · exact .refl _ t
      · exact .refl _ t
    · exact .refl _ t
    · next config hclass =>
      obtain ⟨hnamed, -, hc⟩ := classify_migratable hclass
      have hmem := hw.named _ _ htarget config hnamed
      have hgrown : Staging.Grown (· ∈ m.reach p) t (m.replaceConfig t w config).1 := by
        refine (grown_replaceConfig hc).mono ?_
        rintro q (rfl | rfl)
        · exact config_mem_reach hmem
        · exact archive_mem_reach hmem
      split
      · next hr => simpa [hr] using hgrown
      · next hr => simpa [hr] using hgrown

/-- All units of a project touch paths that it can get to. -/
theorem grown_migrateUnits (hw : m.Tracks p w) (us : List Unit_) :
    Staging.Grown (· ∈ m.reach p) t (m.migrateUnits t w us).1 := by
  induction us generalizing t w with
  | nil => exact .refl _ t
  | cons b us ih =>
    have hb := grown_migrateUnit (t := t) hw b
    unfold Migration.migrateUnits
    split
    · next h => simpa [h] using hb
    · next u w' h =>
      rw [h] at hb
      exact hb.trans (ih (hw.migrateUnit h))

/-- As long as nothing is migrated nothing is staged. -/
theorem eq_of_migrated_eq_zero {us : List Unit_} (h : m.migrateUnits t (.start p) us = (v, .ok x))
    (hx : x.migrated = 0) : v = t := by
  refine migrateUnits_induction (P := fun v x => x.migrated = 0 → v = t) ?_ (fun _ => rfl) h hx
  intro t' w' b v' x' ih hb hzero
  rcases migrateUnit_ok hb with ⟨rfl, -, hmigrated, -⟩ | ⟨_, _, _, _, _, hmigrated, _⟩
  · exact ih (by rw [← hmigrated, hzero])
  · omega

/-! ## Whole projects -/

/-- Tidying targets leaves everything else of a project alone. -/
theorem settle_apart (w : Work) :
    (settle w).name = w.project.name ∧ (settle w).configPath = w.project.configPath := by
  have single (bases : List String) (p : Project) (n : String) :
      (settleTarget bases p n).name = p.name ∧
        (settleTarget bases p n).configPath = p.configPath := by
    unfold settleTarget
    split
    · exact ⟨rfl, rfl⟩
    · dsimp only
      split
      · split
        · exact ⟨rfl, rfl⟩
        · exact ⟨rfl, rfl⟩
      · exact ⟨rfl, rfl⟩
  have all (bases ns : List String) (p : Project) :
      (ns.foldl (settleTarget bases) p).name = p.name ∧
        (ns.foldl (settleTarget bases) p).configPath = p.configPath := by
    induction ns generalizing p with
    | nil => exact ⟨rfl, rfl⟩
    | cons n ns ih =>
      obtain ⟨hname, hpath⟩ := ih (settleTarget bases p n)
      obtain ⟨hname', hpath'⟩ := single bases p n
      exact ⟨hname.trans hname', hpath.trans hpath'⟩
  exact all _ _ _

/-- The work on a project up to where it is flushed: its units, and its document if any
unit was migrated. -/
def prepare (m : Migration) (t : Staging) (p : Project) (us : List Unit_) :
    Staging × Except Failure Work :=
  match m.migrateUnits t (.start p) us with
  | (u, .error f) => (u, .error f)
  | (u, .ok w) =>
    if w.migrated = 0 then (u, .ok w)
    else
      match u.write (settle w).configPath.location (settle w).toText with
      | .error f => (u, .error f)
      | .ok v => (v, .ok { w with project := settle w })

/-- Migrating a project is preparing it and flushing what was staged. -/
theorem migrateProject_eq (m : Migration) (t : Staging) (p : Project) (us : List Unit_) :
    m.migrateProject t p us =
      match m.prepare t p us with
      | (u, .error f) => (u, .error f)
      | (u, .ok w) =>
        if w.migrated = 0 ∨ m.dryRun = true then (u, .ok (w, []))
        else
          match u.flush with
          | (v, .error f) => (v, .error f)
          | (v, .ok written) => (v, .ok (w, written)) := by
  unfold migrateProject prepare
  rcases m.migrateUnits t (.start p) us with ⟨u, f | w⟩
  · rfl
  · dsimp only
    by_cases hzero : w.migrated = 0
    · simp [hzero]
    · simp only [hzero, if_false, saveProject]
      rcases u.write (settle w).configPath.location (settle w).toText with f | v
      · rfl
      · by_cases hdry : m.dryRun = true
        · simp [hdry, hzero]
        · rcases hflush : v.flush with ⟨x, f | written⟩
          · simp [hdry, hzero, hflush]
          · simp [hdry, hzero, hflush]

theorem grown_prepare (m : Migration) (t : Staging) (p : Project) (us : List Unit_) :
    Staging.Grown (· ∈ m.reach p) t (m.prepare t p us).1 := by
  have hgrown := grown_migrateUnits (t := t) (tracks_start m p) us
  unfold prepare
  split
  · next h =>
    rw [h] at hgrown
    exact hgrown
  · next u w h =>
    rw [h] at hgrown
    split
    · exact hgrown
    · split
      · exact hgrown
      · next hwrite =>
        refine hgrown.trans ((Staging.grown_of_write hwrite).mono ?_)
        rintro q rfl
        rw [(settle_apart w).2, ((tracks_start m p).migrateUnits h).configPath]
        exact configPath_mem_reach

/-- What is known after a project was prepared. -/
theorem prepare_ok {us : List Unit_} (h : m.prepare t p us = (u, .ok w)) :
    (w.migrated = 0 ∧ u = t) ∨ w.migrated ≠ 0 ∧ w.project.name = p.name ∧
      ∃ v x, m.migrateUnits t (.start p) us = (v, .ok x) ∧ w = { x with project := settle x } ∧
        v.write p.configPath.location w.project.toText = .ok u := by
  unfold prepare at h
  split at h
  · simp at h
  · next v x hunits =>
    have hw := (tracks_start m p).migrateUnits hunits
    split at h
    · next hzero =>
      obtain ⟨rfl, rfl⟩ := by simpa using h
      exact .inl ⟨hzero, eq_of_migrated_eq_zero hunits hzero⟩
    · next hsome =>
      split at h
      · simp at h
      · next hwrite =>
        obtain ⟨rfl, rfl⟩ := by simpa using h
        obtain ⟨hname, hpath⟩ := settle_apart x
        rw [hpath, hw.configPath] at hwrite
        exact .inr ⟨hsome, hname.trans hw.name, v, x, hunits, rfl, hwrite⟩

/-- What can come of migrating a project from a staging. -/
inductive Outcome (m : Migration) (p : Project) (t : Staging) :
    Staging × Except Failure (Work × List Location) → Prop
  /-- a failure before anything was flushed -/
  | failed {v : Staging} {f : Failure} (grown : Staging.Grown (· ∈ m.reach p) t v) :
      Outcome m p t (v, .error f)
  /-- nothing to migrate -/
  | idle {w : Work} (zero : w.migrated = 0) : Outcome m p t (t, .ok (w, []))
  /-- everything staged, and that is all -/
  | staged {v : Staging} {w : Work} (dry : m.dryRun = true)
      (grown : Staging.Grown (· ∈ m.reach p) t v) (some : w.migrated ≠ 0)
      (name : w.project.name = p.name) : Outcome m p t (v, .ok (w, []))
  /-- everything staged, and a flush that failed -/
  | broken {u v : Staging} {f : Failure} (wet : m.dryRun = false)
      (grown : Staging.Grown (· ∈ m.reach p) t u) (flush : u.flush = (v, .error f)) :
      Outcome m p t (v, .error f)
  /-- everything staged and flushed -/
  | flushed {u v : Staging} {w : Work} {written : List Location} (wet : m.dryRun = false)
      (grown : Staging.Grown (· ∈ m.reach p) t u) (some : w.migrated ≠ 0)
      (name : w.project.name = p.name) (flush : u.flush = (v, .ok written)) :
      Outcome m p t (v, .ok (w, written))

/-- Every migration of a project comes out in one of these ways. -/
theorem outcome_migrateProject (m : Migration) (t : Staging) (p : Project) (us : List Unit_) :
    m.Outcome p t (m.migrateProject t p us) := by
  have hgrown := grown_prepare m t p us
  rw [migrateProject_eq]
  rcases hprepare : m.prepare t p us with ⟨u, f | w⟩
  · rw [hprepare] at hgrown
    exact .failed hgrown
  · rw [hprepare] at hgrown
    dsimp only
    rcases prepare_ok hprepare with ⟨hzero, rfl⟩ | ⟨hsome, hname, -⟩
    · rw [if_pos (.inl hzero)]
      exact .idle hzero
    · by_cases hdry : m.dryRun = true
      · rw [if_pos (.inr hdry)]
        exact .staged hdry hgrown hsome hname
      · rw [if_neg (by simp [hsome, hdry])]
        have hwet : m.dryRun = false := by simpa using hdry
        rcases hflush : u.flush with ⟨v, f | written⟩
        · exact .broken hwet hgrown hflush
        · exact .flushed hwet hgrown hsome hname hflush

/-- A migrated project keeps its name. -/
theorem name_of_migrateProject {us : List Unit_} {written : List Location}
    (h : m.migrateProject t p us = (u, .ok (w, written))) (hw : w.migrated ≠ 0) :
    w.project.name = p.name := by
  have hout := outcome_migrateProject m t p us
  rw [h] at hout
  cases hout with
  | idle zero => exact absurd zero hw
  | staged _ _ _ hname => exact hname
  | flushed _ _ _ hname _ => exact hname

/-! ## Steps of a run -/

/-- The state that a project which fails is left in. -/
theorem step_of_error {f : Failure}
    (h : m.migrateProject s.staging p (Workspace.unitsOfProject m.profile.executor p) =
      (u, .error f)) :
    m.step s p = { s with
      staging := u.rollback s.staging.mark
      report := (s.report.warn .error (some p.name) f.message).addSkipped p.name
        ((Workspace.unitsOfProject m.profile.executor p).countP Unit_.isBase) f.message } := by
  unfold step
  dsimp only
  split
  · next hnil =>
    -- a project without units does not fail
    rw [List.isEmpty_iff] at hnil
    simp [hnil, migrateProject, migrateUnits, Work.start] at h
  · rw [h]

/-- The state that a project which succeeds is left in. -/
theorem step_of_ok {written : List Location}
    (hne : (Workspace.unitsOfProject m.profile.executor p).isEmpty = false)
    (h : m.migrateProject s.staging p (Workspace.unitsOfProject m.profile.executor p) =
      (u, .ok (w, written))) :
    m.step s p =
      let r := { s.report with
        warnings := s.report.warnings ++ w.warnings
        written := s.report.written ++ written.map Location.path }
      if w.migrated = 0 then
        { s with
          staging := u
          report := r.addSkipped p.name w.skipped ("; ".intercalate w.reasons) }
      else
        { staging := u
          workspace := s.workspace.put w.project
          report := { r with skipped := r.skipped + w.skipped }.addMigrated p.name w.migrated
            w.config } := by
  unfold step
  simp only [hne, h, Bool.false_eq_true, if_false]

/-- Where a run begins. -/
def begin (m : Migration) (t : Staging) (w : Workspace) : State :=
  ⟨t, w, { Report.empty with dryRun := m.dryRun }⟩

/-- How a run ends once all projects are through. -/
def finish (s : State) : Run :=
  match s.report.result with
  | .error f => ⟨s.staging, s.workspace, .error f⟩
  | .ok r => ⟨s.staging, s.workspace, .ok { r with lineCount := countChanges s.staging }⟩

theorem finish_eq (s : State) :
    finish s = ⟨s.staging, s.workspace,
      if s.report.succeeded then .ok { s.report with lineCount := countChanges s.staging }
      else .error .nothingMigrated⟩ := by
  unfold finish Report.result
  by_cases h : s.report.succeeded = true
  · simp [h]
  · simp [h]

/-- A run asks for a project that is not there, or goes through the projects in
scope. -/
theorem run_cases (m : Migration) (t : Staging) (w : Workspace) :
    (∃ name, m.project = some name ∧ w.project? name = none ∧
      m.run t w = ⟨t, w, .error (.projectNotFound name)⟩) ∨
    m.run t w = finish ((w.inScope m.project).foldl m.step (m.begin t w)) := by
  unfold run
  split
  · next name hname =>
    split
    · next hnone => exact .inl ⟨name, hname, by simpa using hnone, rfl⟩
    · exact .inr rfl
  · exact .inr rfl

/-- A run that finds the project that it asks for. -/
theorem run_of_isSome {w : Workspace}
    (h : ∀ name, m.project = some name → (w.project? name).isSome) :
    m.run t w = finish ((w.inScope m.project).foldl m.step (m.begin t w)) := by
  rcases run_cases m t w with ⟨name, hname, hnone, -⟩ | hrun
  · have := h name hname
    simp [hnone] at this
  · exact hrun

/-- A run that asks for a project that is not there. -/
theorem run_of_eq_none {w : Workspace} {name : String} (hname : m.project = some name)
    (hnone : w.project? name = none) : m.run t w = ⟨t, w, .error (.projectNotFound name)⟩ := by
  unfold run
  simp [hname, hnone]

theorem coherent_migrateProject (ht : t.Coherent) (us : List Unit_) :
    (m.migrateProject t p us).1.Coherent := by
  have hout := outcome_migrateProject m t p us
  generalize m.migrateProject t p us = run at hout
  cases hout with
  | failed grown => exact grown.coherent ht
  | idle _ => exact ht
  | staged _ grown _ _ => exact grown.coherent ht
  | broken _ grown flush => simpa only [flush] using (grown.coherent ht).flush
  | flushed _ grown _ _ flush => simpa only [flush] using (grown.coherent ht).flush

/-- A step keeps a staging coherent. -/
theorem coherent_step (hs : s.staging.Coherent) (p : Project) :
    (m.step s p).staging.Coherent := by
  have h := coherent_migrateProject (m := m) (p := p) hs
    (Workspace.unitsOfProject m.profile.executor p)
  unfold step
  dsimp only
  split
  · exact hs
  · split
    · next hrun =>
      rw [hrun] at h
      split
      · exact h
      · exact h
    · next hrun =>
      rw [hrun] at h
      exact h.rollback _

/-- The steps of a run keep a staging coherent. -/
theorem coherent_foldl (hs : s.staging.Coherent) (ps : List Project) :
    (ps.foldl m.step s).staging.Coherent := by
  induction ps generalizing s with
  | nil => exact hs
  | cons p ps ih => exact ih (coherent_step hs p)

/-! ## Runs that only stage -/

/-- Nothing is flushed to a disk: it is a dry run, or there is none. -/
def StagesOnly (m : Migration) (t : Staging) : Prop :=
  m.dryRun = true ∨ t.disk = none

/-- Such a run fails at nothing but staging. -/
theorem grown_of_error (hs : m.StagesOnly t) {us : List Unit_} {f : Failure}
    (h : m.migrateProject t p us = (u, .error f)) :
    Staging.Grown (· ∈ m.reach p) t u := by
  have hout := outcome_migrateProject m t p us
  rw [h] at hout
  cases hout with
  | failed grown => exact grown
  | broken wet grown flush =>
    -- without a disk no flush fails
    rcases hs with hdry | hnone
    · simp [hdry] at wet
    · have hdisk : Staging.disk _ = none := grown.disk.trans hnone
      simp [Staging.flush_of_disk_eq_none hdisk] at flush

theorem disk_migrateProject (ht : m.StagesOnly t) (us : List Unit_) :
    (m.migrateProject t p us).1.disk = t.disk := by
  have hflush : ∀ u : Staging, m.dryRun = false → u.disk = t.disk → u.flush.1.disk = t.disk := by
    intro u hwet hu
    have hnone : t.disk = none := ht.resolve_left (by simp [hwet])
    obtain ⟨disk, n, hfst, -, hdisk⟩ := u.flush_fst
    rw [hfst, hnone]
    exact hdisk (hu.trans hnone)
  have hout := outcome_migrateProject m t p us
  generalize m.migrateProject t p us = run at hout
  cases hout with
  | failed grown => exact grown.disk
  | idle _ => rfl
  | staged _ grown _ _ => exact grown.disk
  | broken wet grown flush => simpa only [flush] using hflush _ wet grown.disk
  | flushed wet grown _ _ flush => simpa only [flush] using hflush _ wet grown.disk

/-- Such a run leaves the disk as it is. -/
theorem disk_step (hs : m.StagesOnly s.staging) (p : Project) :
    (m.step s p).staging.disk = s.staging.disk := by
  have h := disk_migrateProject (p := p) hs (Workspace.unitsOfProject m.profile.executor p)
  unfold step
  dsimp only
  split
  · rfl
  · split
    · next hrun =>
      rw [hrun] at h
      split
      · exact h
      · exact h
    · next hrun =>
      rw [hrun] at h
      exact (Staging.rollback_disk _ _).trans h

theorem StagesOnly.step (hs : m.StagesOnly s.staging) (p : Project) :
    m.StagesOnly (m.step s p).staging :=
  hs.imp_right fun hnone => (disk_step hs p).trans hnone

theorem disk_foldl (hs : m.StagesOnly s.staging) (ps : List Project) :
    (ps.foldl m.step s).staging.disk = s.staging.disk := by
  induction ps generalizing s with
  | nil => rfl
  | cons p ps ih => exact (ih (hs.step p)).trans (disk_step hs p)

theorem StagesOnly.foldl (hs : m.StagesOnly s.staging) (ps : List Project) :
    m.StagesOnly (ps.foldl m.step s).staging :=
  hs.imp_right fun hnone => (disk_foldl hs ps).trans hnone

end Retarget.Migration
