import Retarget.Proofs.Migration.Outcome
import Retarget.Proofs.Workspace.Names

/-!
# What a run reports

A step of a run reports about its own project only, and changes no other project of
the workspace.  A project is reported as migrated only if units of it were migrated,
so such a run succeeds.
-/

namespace Retarget

/-- Whether a project is reported as migrated. -/
def Report.Migrated (r : Report) (name : String) : Prop :=
  ∃ units config, r.projects.get? name = some (.migrated units config)

/-- Whether a project is reported as skipped. -/
def Report.Skipped (r : Report) (name : String) : Prop :=
  ∃ reason, r.projects.get? name = some (.skipped reason)

namespace Migration

variable {m : Migration} {p q : Project} {s : State} {t : Staging} {w : Workspace} {name : String}

/-- What can become of a state when a project is migrated. -/
inductive Stepped (m : Migration) (s : State) (p : Project) : State → Prop
  /-- the project has no units -/
  | unbound (none : (Workspace.unitsOfProject m.profile.executor p).isEmpty = true) :
      Stepped m s p s
  /-- the project failed -/
  | failed {u : Staging} {f : Failure} (run : m.migrateProject s.staging p
        (Workspace.unitsOfProject m.profile.executor p) = (u, .error f)) :
      Stepped m s p { s with
        staging := u.rollback s.staging.mark
        report := (s.report.warn .error (some p.name) f.message).addSkipped p.name
          ((Workspace.unitsOfProject m.profile.executor p).countP Unit_.isBase) f.message }
  /-- the project had nothing to migrate -/
  | idle {u : Staging} {w : Work} {written : List Location} (run : m.migrateProject s.staging p
        (Workspace.unitsOfProject m.profile.executor p) = (u, .ok (w, written)))
      (zero : w.migrated = 0) :
      Stepped m s p { s with
        staging := u
        report := { s.report with
          warnings := s.report.warnings ++ w.warnings
          written := s.report.written ++ written.map Location.path }.addSkipped p.name w.skipped
            ("; ".intercalate w.reasons) }
  /-- the project was migrated -/
  | migrated {u : Staging} {w : Work} {written : List Location}
      (run : m.migrateProject s.staging p
        (Workspace.unitsOfProject m.profile.executor p) = (u, .ok (w, written)))
      (some : w.migrated ≠ 0) :
      Stepped m s p {
        staging := u
        workspace := s.workspace.put w.project
        report := { s.report with
          warnings := s.report.warnings ++ w.warnings
          written := s.report.written ++ written.map Location.path
          skipped := s.report.skipped + w.skipped }.addMigrated p.name w.migrated w.config }

theorem stepped_step (m : Migration) (s : State) (p : Project) : m.Stepped s p (m.step s p) := by
  cases hunits : (Workspace.unitsOfProject m.profile.executor p).isEmpty with
  | true =>
    have hstep : m.step s p = s := by
      unfold step
      simp [hunits]
    rw [hstep]
    exact .unbound hunits
  | false =>
    generalize hrun : m.migrateProject s.staging p
      (Workspace.unitsOfProject m.profile.executor p) = run
    obtain ⟨u, f | ⟨w, written⟩⟩ := run
    · rw [step_of_error hrun]
      exact .failed hrun
    · rw [step_of_ok hunits hrun]
      dsimp only
      split
      · next hzero => exact .idle hrun hzero
      · next hsome => exact .migrated hrun hsome

/-- A step reports about its own project only. -/
theorem projects_step_of_ne (h : p.name ≠ name) :
    (m.step s p).report.projects.get? name = s.report.projects.get? name := by
  have hstep := stepped_step m s p
  generalize m.step s p = s' at hstep
  cases hstep with
  | unbound _ => rfl
  | failed _ => exact OrderedMap.get?_insert_of_ne _ h.symm
  | idle _ _ => exact OrderedMap.get?_insert_of_ne _ h.symm
  | migrated _ _ => exact OrderedMap.get?_insert_of_ne _ h.symm

theorem projects_foldl_of_ne {ps : List Project} (h : ∀ p ∈ ps, p.name ≠ name) :
    (ps.foldl m.step s).report.projects.get? name = s.report.projects.get? name := by
  induction ps generalizing s with
  | nil => rfl
  | cons p ps ih =>
    rw [List.foldl_cons, ih fun q hq => h q (List.mem_cons_of_mem _ hq),
      projects_step_of_ne (h p List.mem_cons_self)]

theorem migrated_foldl_of_ne {ps : List Project} (h : ∀ p ∈ ps, p.name ≠ name) :
    (ps.foldl m.step s).report.Migrated name ↔ s.report.Migrated name := by
  unfold Report.Migrated
  rw [projects_foldl_of_ne h]

/-- A step changes its own project only. -/
theorem project?_step_of_ne (h : p.name ≠ name) :
    (m.step s p).workspace.project? name = s.workspace.project? name := by
  have hstep := stepped_step m s p
  generalize m.step s p = s' at hstep
  cases hstep with
  | unbound _ => rfl
  | failed _ => rfl
  | idle _ _ => rfl
  | migrated hrun hsome =>
    exact Workspace.project?_put (by rwa [name_of_migrateProject hrun hsome])

/-- A step that skips its project does not change it. -/
theorem workspace_step_of_skipped (h : (m.step s p).report.Skipped p.name) :
    (m.step s p).workspace = s.workspace := by
  have hstep := stepped_step m s p
  generalize m.step s p = s' at h hstep
  cases hstep with
  | unbound _ => rfl
  | failed _ => rfl
  | idle _ _ => rfl
  | migrated _ _ =>
    obtain ⟨reason, hentry⟩ := h
    simp [Report.addMigrated, OrderedMap.get?_insert_self] at hentry

/-- A project that is reported as skipped is what it was. -/
theorem project?_foldl_of_skipped {ps : List Project} (hnames : (ps.map Project.name).Nodup)
    (h : (ps.foldl m.step s).report.Skipped name) :
    (ps.foldl m.step s).workspace.project? name = s.workspace.project? name := by
  induction ps generalizing s with
  | nil => rfl
  | cons p ps ih =>
    rw [List.foldl_cons] at h ⊢
    rw [ih (List.nodup_cons.mp hnames).2 h]
    by_cases hp : p.name = name
    · subst hp
      -- nothing else is reported about the project later
      have hlater : ∀ q ∈ ps, q.name ≠ p.name := name_ne_of_nodup [] ps hnames
      obtain ⟨reason, hentry⟩ := h
      rw [projects_foldl_of_ne hlater] at hentry
      rw [workspace_step_of_skipped ⟨reason, hentry⟩]
    · exact project?_step_of_ne hp

theorem migrated_le_step (m : Migration) (s : State) (p : Project) :
    s.report.migrated ≤ (m.step s p).report.migrated := by
  have hstep := stepped_step m s p
  generalize m.step s p = s' at hstep
  cases hstep with
  | unbound _ => exact Nat.le_refl _
  | failed _ => exact Nat.le_refl _
  | idle _ _ => exact Nat.le_refl _
  | migrated _ _ => exact Nat.le_add_right _ _

theorem migrated_le_foldl (m : Migration) (s : State) (ps : List Project) :
    s.report.migrated ≤ (ps.foldl m.step s).report.migrated := by
  induction ps generalizing s with
  | nil => exact Nat.le_refl _
  | cons p ps ih => exact Nat.le_trans (migrated_le_step m s p) (ih _)

/-- Migrated projects count. -/
def Counts (r : Report) : Prop :=
  ∀ name, r.Migrated name → 0 < r.migrated

theorem counts_step (h : Counts s.report) : Counts (m.step s p).report := by
  rintro name ⟨units, config, hentry⟩
  by_cases hp : p.name = name
  · have hstep := stepped_step m s p
    generalize m.step s p = s' at hentry hstep
    cases hstep with
    | unbound _ => exact h name ⟨units, config, hentry⟩
    | failed _ =>
      rw [← hp] at hentry
      simp [Report.addSkipped, OrderedMap.get?_insert_self] at hentry
    | idle _ _ =>
      rw [← hp] at hentry
      simp [Report.addSkipped, OrderedMap.get?_insert_self] at hentry
    | migrated _ hsome =>
      simp only [Report.addMigrated]
      omega
  · rw [projects_step_of_ne hp] at hentry
    exact Nat.lt_of_lt_of_le (h name ⟨units, config, hentry⟩) (migrated_le_step m s p)

theorem counts_foldl {ps : List Project} (h : Counts s.report) :
    Counts (ps.foldl m.step s).report := by
  induction ps generalizing s with
  | nil => exact h
  | cons p ps ih => exact ih (counts_step h)

/-- A run that migrated a project succeeds and reports it. -/
theorem finish_of_migrated (hs : Counts s.report) (h : s.report.Migrated name) :
    ∃ report, (finish s).result = .ok report ∧ report.Migrated name := by
  have hpos : s.report.succeeded = true := by simpa [Report.succeeded] using hs name h
  rw [finish_eq]
  simp only [hpos, if_true]
  exact ⟨_, rfl, h⟩

end Migration

end Retarget
