import Retarget.Proofs.Migration.Agreement
import Retarget.Proofs.Migration.Warnings
import Retarget.Proofs.Workspace.Names

/-!
# A project that fails leaves no trace

As long as nothing is flushed to a disk, a project that fails is taken back
completely: what is left of it is one warning, its entry in the report and the
number of units that were lost with it.  The rest of a run cannot tell whether the
project was there at all.

Two runs are compared by `Apart`: the states that they go through agree on
everything that is not about the failed project.
-/

namespace Retarget

/-- The workspace without the project of a name. -/
def Workspace.without (w : Workspace) (name : String) : Workspace :=
  ⟨w.projects.filter fun q => q.name ≠ name⟩

/-- Replacing a project and leaving out another one can be done in either order. -/
theorem Workspace.without_put {w : Workspace} {q : Project} {name : String}
    (h : q.name ≠ name) : (w.put q).without name = (w.without name).put q := by
  have hany : (w.projects.filter fun r => r.name ≠ name).any (fun r => r.name = q.name) =
      w.projects.any fun r => r.name = q.name := by
    rw [Bool.eq_iff_iff]
    simp only [List.any_eq_true, List.mem_filter, decide_eq_true_eq]
    constructor
    · rintro ⟨r, ⟨hr, -⟩, hname⟩
      exact ⟨r, hr, hname⟩
    · rintro ⟨r, hr, hname⟩
      exact ⟨r, ⟨hr, by rwa [hname]⟩, hname⟩
  simp only [put, place, without, hany, mk.injEq]
  split
  · rw [List.filter_map]
    congr 1
    refine List.filter_congr fun r _ => ?_
    by_cases hr : r.name = q.name
    · simp [hr, h]
    · simp [hr]
  · simp [List.filter_append, h]

namespace Migration

variable {m : Migration} {p q : Project} {s s' : State} {t u : Staging} {w x : Work}
  {name : String}

/-! ## The state after a failure -/

/-- What a project that failed leaves: a warning, and units that were skipped. -/
structure NoTrace (m : Migration) (p : Project) (f : Failure) (s s' : State) : Prop where
  log : s'.staging.log = s.staging.log
  pending : s'.staging.pending = s.staging.pending
  read : ∀ path, s'.staging.read path = s.staging.read path
  exists_ : ∀ path, s'.staging.exists_ path = s.staging.exists_ path
  workspace : s'.workspace = s.workspace
  warnings : s'.report.warnings = s.report.warnings ++ [⟨.error, some p.name, f.message⟩]
  skipped : s'.report.skipped = s.report.skipped +
    (Workspace.unitsOfProject m.profile.executor p).countP Unit_.isBase

/-- A project that fails is taken back. -/
theorem agree_of_error (ht : t.Coherent) (hs : m.StagesOnly t) {us : List Unit_} {f : Failure}
    (h : m.migrateProject t p us = (u, .error f)) : (u.rollback t.mark).Agree t :=
  (grown_of_error hs h).rollback ht

theorem noTrace_step (ht : s.staging.Coherent) (hs : m.StagesOnly s.staging) {f : Failure}
    (h : (m.migrateProject s.staging p
      (Workspace.unitsOfProject m.profile.executor p)).2 = .error f) :
    m.NoTrace p f s (m.step s p) := by
  obtain ⟨u, hu⟩ : ∃ u, m.migrateProject s.staging p
      (Workspace.unitsOfProject m.profile.executor p) = (u, .error f) := ⟨_, Prod.ext rfl h⟩
  have hagree := agree_of_error ht hs hu
  rw [step_of_error hu]
  exact ⟨hagree.log, hagree.pending, hagree.read, hagree.exists_, rfl, rfl, rfl⟩

/-! ## The rest of the run -/

/-- Reports that differ in what they say about one project only: `a` counts `lost`
more skipped units, and `b` does not mention the project. -/
structure ReportApart (name : String) (lost : Nat) (a b : Report) : Prop where
  migrated : a.migrated = b.migrated
  skipped : a.skipped = b.skipped + lost
  warnings : (a.warnings.filter fun x => x.project ≠ some name) = b.warnings
  projects : a.projects.remove name = b.projects
  written : a.written = b.written
  dryRun : a.dryRun = b.dryRun
  lineCount : a.lineCount = b.lineCount

variable {lost : Nat} {a b : Report}

/-- Warnings about another project. -/
theorem ReportApart.warnings_append (h : ReportApart name lost a b) (more : List Warning)
    (hmore : ∀ x ∈ more, x.project ≠ some name) (written : List Path) :
    ReportApart name lost
      { a with warnings := a.warnings ++ more, written := a.written ++ written }
      { b with warnings := b.warnings ++ more, written := b.written ++ written } where
  migrated := h.migrated
  skipped := h.skipped
  warnings := by
    have hkeep : (more.filter fun x => x.project ≠ some name) = more := by
      rw [List.filter_eq_self]
      simpa using hmore
    simp only [List.filter_append, h.warnings, hkeep]
  projects := h.projects
  written := by simp only [h.written]
  dryRun := h.dryRun
  lineCount := h.lineCount

theorem ReportApart.addSkipped (h : ReportApart name lost a b) (hq : q.name ≠ name) (n : Nat)
    (reason : String) :
    ReportApart name lost (a.addSkipped q.name n reason) (b.addSkipped q.name n reason) where
  migrated := h.migrated
  skipped := by
    have := h.skipped
    simp only [Report.addSkipped]
    omega
  warnings := h.warnings
  projects := by
    simp only [Report.addSkipped, OrderedMap.remove_insert_of_ne _ hq, h.projects]
  written := h.written
  dryRun := h.dryRun
  lineCount := h.lineCount

theorem ReportApart.addMigrated (h : ReportApart name lost a b) (hq : q.name ≠ name)
    (k n : Nat) (config : Option Path) :
    ReportApart name lost
      ({ a with skipped := a.skipped + k }.addMigrated q.name n config)
      ({ b with skipped := b.skipped + k }.addMigrated q.name n config) where
  migrated := by simp only [Report.addMigrated, h.migrated]
  skipped := by
    have := h.skipped
    simp only [Report.addMigrated]
    omega
  warnings := h.warnings
  projects := by
    simp only [Report.addMigrated, OrderedMap.remove_insert_of_ne _ hq, h.projects]
  written := h.written
  dryRun := h.dryRun
  lineCount := h.lineCount

/-- States that differ in one project only, which the second one does not know. -/
structure Apart (name : String) (lost : Nat) (s s' : State) : Prop where
  staging : s.staging.Agree s'.staging
  workspace : s.workspace.without name = s'.workspace
  report : ReportApart name lost s.report s'.report

/-- Migrating another project keeps states apart. -/
theorem Apart.step (h : Apart name lost s s') (ht : s.staging.Coherent)
    (ht' : s'.staging.Coherent) (hs : m.StagesOnly s.staging) (hq : q.name ≠ name) :
    Apart name lost (m.step s q) (m.step s' q) := by
  have hs' : m.StagesOnly s'.staging := hs.imp_right fun hnone => by rw [← h.staging.disk, hnone]
  cases hunits : (Workspace.unitsOfProject m.profile.executor q).isEmpty with
  | true =>
    unfold Migration.step
    simpa only [hunits, if_true] using h
  | false =>
    have hrun := migrateProject_congr h.staging ht ht' hs q
      (Workspace.unitsOfProject m.profile.executor q)
    generalize hu : m.migrateProject s.staging q
      (Workspace.unitsOfProject m.profile.executor q) = run at hrun
    generalize hu' : m.migrateProject s'.staging q
      (Workspace.unitsOfProject m.profile.executor q) = run' at hrun
    obtain ⟨u, r⟩ := run
    obtain ⟨u', r'⟩ := run'
    obtain ⟨hagree, rfl⟩ := hrun
    cases r with
    | error f =>
      rw [step_of_error hu, step_of_error hu']
      have hback := agree_of_error ht hs hu
      have hback' := agree_of_error ht' hs' hu'
      refine ⟨(hback.trans h.staging).trans hback'.symm, h.workspace, ?_⟩
      have hwarned := h.report.warnings_append [⟨.error, some q.name, f.message⟩]
        (by simpa using hq) []
      simp only [List.append_nil] at hwarned
      exact hwarned.addSkipped hq _ _
    | ok done =>
      obtain ⟨w, written⟩ := done
      rw [step_of_ok hunits hu, step_of_ok hunits hu']
      have hreport := h.report.warnings_append w.warnings
        (fun x hx => by
          rw [signed_of_migrateProject hu x hx]
          simpa using hq) (written.map Location.path)
      dsimp only
      split
      · exact ⟨hagree, h.workspace, hreport.addSkipped hq _ _⟩
      · next hsome =>
        have hname := name_of_migrateProject hu hsome
        refine ⟨hagree, ?_, hreport.addMigrated hq _ _ _⟩
        rw [Workspace.without_put (by rwa [hname]), h.workspace]

/-- Migrating other projects keeps states apart. -/
theorem Apart.foldl (h : Apart name lost s s') (ht : s.staging.Coherent)
    (ht' : s'.staging.Coherent) (hs : m.StagesOnly s.staging) {qs : List Project}
    (hqs : ∀ q ∈ qs, q.name ≠ name) :
    Apart name lost (qs.foldl m.step s) (qs.foldl m.step s') := by
  induction qs generalizing s s' with
  | nil => exact h
  | cons q qs ih =>
    refine ih (h.step ht ht' hs (hqs q List.mem_cons_self)) (coherent_step ht q)
      (coherent_step ht' q) ?_ fun r hr => hqs r (List.mem_cons_of_mem _ hr)
    exact hs.step q

/-- A project that failed and one that was not there differ by what is told about
the project. -/
theorem Apart.step_of_error (h : Apart p.name 0 s s') (ht : s.staging.Coherent)
    (hs : m.StagesOnly s.staging) {f : Failure}
    (hf : (m.migrateProject s.staging p
      (Workspace.unitsOfProject m.profile.executor p)).2 = .error f) :
    Apart p.name ((Workspace.unitsOfProject m.profile.executor p).countP Unit_.isBase)
      (m.step s p) s' := by
  obtain ⟨u, hu⟩ : ∃ u, m.migrateProject s.staging p
      (Workspace.unitsOfProject m.profile.executor p) = (u, .error f) := ⟨_, Prod.ext rfl hf⟩
  rw [Migration.step_of_error hu]
  refine ⟨(agree_of_error ht hs hu).trans h.staging, h.workspace, h.report.migrated, ?_, ?_, ?_,
    h.report.written, h.report.dryRun, h.report.lineCount⟩
  · have := h.report.skipped
    simp only [Report.addSkipped, Report.warn]
    omega
  · simp [Report.addSkipped, Report.warn, ← h.report.warnings]
  · simp only [Report.addSkipped, Report.warn, OrderedMap.remove_insert_self, h.report.projects]

/-- Runs that did the same for every project but one. -/
structure SameRest (name : String) (lost : Nat) (r r' : Run) : Prop where
  log : r.staging.log = r'.staging.log
  pending : r.staging.pending = r'.staging.pending
  read : ∀ path, r.staging.read path = r'.staging.read path
  workspace : r.workspace.without name = r'.workspace
  result : (∃ f, r.result = .error f ∧ r'.result = .error f) ∨
    ∃ a b, r.result = .ok a ∧ r'.result = .ok b ∧ ReportApart name lost a b

/-- States apart make runs that did the same for every other project. -/
theorem Apart.sameRest (h : Apart name lost s s') (ht : s.staging.Coherent)
    (ht' : s'.staging.Coherent) : SameRest name lost (finish s) (finish s') := by
  have hsucceeded : s.report.succeeded = s'.report.succeeded := by
    simp only [Report.succeeded, h.report.migrated]
  have hcount : countChanges s.staging = countChanges s'.staging :=
    countChanges_congr ht ht' (fun x => by rw [h.staging.overlay])
      fun x _ => h.staging.original x
  rw [finish_eq, finish_eq, ← hsucceeded]
  refine ⟨h.staging.log, h.staging.pending, h.staging.read, h.workspace, ?_⟩
  by_cases hr : s.report.succeeded = true
  · simp only [hr, if_true]
    exact .inr ⟨_, _, rfl, rfl, { h.report with lineCount := hcount }⟩
  · exact .inl ⟨.nothingMigrated, by simp [hr]⟩

/-- The projects that are left without one of them. -/
theorem projects_without {before after : List Project} {v : Workspace}
    (hv : v.projects = before ++ p :: after) (hnames : (v.projects.map Project.name).Nodup) :
    (v.without p.name).projects = before ++ after ∧ ∀ q ∈ before ++ after, q.name ≠ p.name := by
  rw [hv] at hnames
  have hother := name_ne_of_nodup before after hnames
  refine ⟨?_, hother⟩
  have hkeep : ∀ qs : List Project, (∀ q ∈ qs, q.name ≠ p.name) →
      (qs.filter fun q => q.name ≠ p.name) = qs := by
    intro qs hqs
    rw [List.filter_eq_self]
    simpa using hqs
  simp only [Workspace.without, hv]
  rw [List.filter_append, List.filter_cons_of_neg (by simp),
    hkeep _ fun q hq => hother q (List.mem_append_left _ hq),
    hkeep _ fun q hq => hother q (List.mem_append_right _ hq)]

/-- In a dry run and without a disk a project that fails leaves no trace but its
warning and its skipped units, and the rest of the run does what it would have done
without the project. -/
theorem failed_project_leaves_no_trace (m : Migration) :
    (∀ (s : State) (p : Project) (f : Failure), s.staging.Reachable → m.StagesOnly s.staging →
      (m.migrateProject s.staging p
        (Workspace.unitsOfProject m.profile.executor p)).2 = .error f →
      m.NoTrace p f s (m.step s p)) ∧
    ∀ (t : Staging) (w : Workspace) (before after : List Project) (p : Project) (f : Failure),
      t.Reachable → m.StagesOnly t → m.project = none →
      w.projects = before ++ p :: after → (w.projects.map Project.name).Nodup →
      (m.migrateProject (before.foldl m.step (m.begin t w)).staging p
        (Workspace.unitsOfProject m.profile.executor p)).2 = .error f →
      SameRest p.name ((Workspace.unitsOfProject m.profile.executor p).countP Unit_.isBase)
        (m.run t w) (m.run t (w.without p.name)) := by
  refine ⟨fun s p f ht hs hf => noTrace_step ht.coherent hs hf, ?_⟩
  intro t w before after p f ht hs hall hw hnames hf
  obtain ⟨hwithout, hother⟩ := projects_without hw hnames
  have hbefore : ∀ q ∈ before, q.name ≠ p.name := fun q hq =>
    hother q (List.mem_append_left _ hq)
  have hafter : ∀ q ∈ after, q.name ≠ p.name := fun q hq =>
    hother q (List.mem_append_right _ hq)
  have hrun : m.run t w =
      finish (after.foldl m.step (m.step (before.foldl m.step (m.begin t w)) p)) := by
    rcases run_cases m t w with ⟨name, hname, -⟩ | hrun
    · simp [hall] at hname
    · rw [hrun, hall, Workspace.inScope_none, hw, List.foldl_append, List.foldl_cons]
  have hrun' : m.run t (w.without p.name) =
      finish (after.foldl m.step (before.foldl m.step (m.begin t (w.without p.name)))) := by
    rcases run_cases m t (w.without p.name) with ⟨name, hname, -⟩ | hrun
    · simp [hall] at hname
    · rw [hrun, hall, Workspace.inScope_none, hwithout, List.foldl_append]
  -- the runs are apart from the beginning, through the failure, up to the end
  have hstart : Apart p.name 0 (m.begin t w) (m.begin t (w.without p.name)) :=
    ⟨.refl t, rfl, rfl, rfl, rfl, rfl, rfl, rfl, rfl⟩
  have hreached := hstart.foldl ht.coherent ht.coherent hs hbefore
  have hc := coherent_foldl (m := m) (s := m.begin t w) ht.coherent before
  have hc' := coherent_foldl (m := m) (s := m.begin t (w.without p.name)) ht.coherent before
  have hs' := StagesOnly.foldl (s := m.begin t w) hs before
  have hfailed := hreached.step_of_error hc hs' hf
  have hend := hfailed.foldl (coherent_step hc p) hc' (hs'.step p) hafter
  rw [hrun, hrun']
  exact hend.sameRest (coherent_foldl hc (p :: after)) (coherent_foldl hc' after)

theorem failed_project_leaves_no_trace_halfway :
    retire.NoTrace halfway (.unsupportedLanguage "json") (retire.begin shelf ⟨[halfway, sharing]⟩)
      (retire.step (retire.begin shelf ⟨[halfway, sharing]⟩) halfway) ∧
    SameRest "a" 2 (retire.run shelf ⟨[halfway, sharing]⟩)
      (retire.run shelf (Workspace.without ⟨[halfway, sharing]⟩ "a")) := by
  have hfails : (retire.migrateProject shelf halfway
      (Workspace.unitsOfProject retire.profile.executor halfway)).2 =
        .error (.unsupportedLanguage "json") :=
    eq_error_of_map (by decide +kernel)
  have h := failed_project_leaves_no_trace retire
  exact ⟨h.1 (retire.begin shelf ⟨[halfway, sharing]⟩) halfway _ reachable_shelf (.inr rfl) hfails,
    h.2 shelf ⟨[halfway, sharing]⟩ [] [sharing] halfway _ reachable_shelf (.inr rfl) rfl rfl
      (by decide) hfails⟩

end Migration

end Retarget
