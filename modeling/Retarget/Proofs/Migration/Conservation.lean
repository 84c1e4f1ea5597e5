import Retarget.Proofs.Migration.Refinement

/-!
# Units are conserved

Every default unit in scope is migrated, and then counts with its configurations, or it
stays and counts as skipped.  What counts as skipped is what is still bound to the
executor afterwards, so once a run has skipped nothing there is nothing left to migrate.
-/

namespace Retarget.Migration

variable {m : Migration} {p : Project} {t : Staging} {w w' : Workspace} {report : Report}
  {fmt : Option Formatter} {names : List String}

/-! ## What is left bound -/

/-- What is left of a migrated target is not bound to an executor. -/
theorem executor?_of_remains {x y : String × Target} (h : m.remains x = some y) :
    y.2.executor? = none := by
  unfold remains at h
  dsimp only at h
  split at h
  · cases h
  · rw [← Option.some.inj h]
    exact Target.executor?_removeExecutor _

/-- The targets that are not migrated stay bound. -/
theorem bound_reworked (names : List String) (p : Project) :
    m.bound (m.reworked names p) = (m.bound p).filter fun x => x.1 ∉ names := by
  simp only [bound, reworked]
  induction p.targets with
  | nil => rfl
  | cons x rest ih =>
    rw [List.filterMap_cons]
    by_cases hx : x.1 ∈ names
    · rw [if_pos hx]
      cases hleft : m.remains x with
      | none =>
        by_cases hbound : x.2.executor? = some m.profile.executor
        · simp [ih, hbound, hx]
        · simp [ih, hbound]
      | some y =>
        have hy := executor?_of_remains hleft
        by_cases hbound : x.2.executor? = some m.profile.executor
        · simp [ih, hbound, hx, hy]
        · simp [ih, hbound, hy]
    · rw [if_neg hx]
      by_cases hbound : x.2.executor? = some m.profile.executor
      · simp [ih, hbound, hx]
      · simp [ih, hbound]

theorem length_bound_reworked (names : List String) (p : Project) :
    (m.bound (m.reworked names p)).length = m.keptBases names p := by
  rw [bound_reworked, ← List.countP_eq_length_filter]
  rfl

/-- Reworking projects does not change which of them are in scope. -/
theorem inScope_map_reworked (moved : String → List String)
    (h : w'.projects = w.projects.map fun p => m.reworked (moved p.name) p)
    (filter : Option String) :
    w'.inScope filter = (w.inScope filter).map fun p => m.reworked (moved p.name) p := by
  unfold Workspace.inScope
  rw [h, List.filter_map]
  rfl

/-! ## Counting units over a workspace -/

theorem countP_units (P : String → String → Bool) (w : Workspace) (filter : Option String) :
    (w.units m.profile.executor filter).countP (fun u => u.isBase && P u.project u.target) =
      ((w.inScope filter).map fun p => (m.bound p).countP fun x => P p.name x.1).sum := by
  unfold Workspace.units
  rw [List.countP_flatMap]
  congr 1
  exact List.map_congr_left fun p _ => countP_unitsOfProject P p

theorem countP_isBase_units (w : Workspace) (filter : Option String) :
    (w.units m.profile.executor filter).countP Unit_.isBase =
      ((w.inScope filter).map fun p => (m.bound p).length).sum := by
  simpa using countP_units (m := m) (fun _ _ => true) w filter

/-- A bound target has a unit, and every unit is one of a bound target. -/
theorem exists_unit_iff (P : String → String → Prop) :
    (∃ u ∈ w.units m.profile.executor m.project, P u.project u.target) ↔
      ∃ p ∈ w.inScope m.project, ∃ x ∈ m.bound p, P p.name x.1 := by
  unfold Workspace.units Workspace.unitsOfProject
  constructor
  · rintro ⟨u, hu, hP⟩
    obtain ⟨p, hp, hu⟩ := List.mem_flatMap.mp hu
    obtain ⟨x, hx, hu⟩ := List.mem_flatMap.mp hu
    refine ⟨p, hp, x, hx, ?_⟩
    rcases List.mem_cons.mp hu with rfl | hu
    · exact hP
    · obtain ⟨c, -, rfl⟩ := List.mem_map.mp hu
      exact hP
  · rintro ⟨p, hp, x, hx, hP⟩
    refine ⟨⟨p.name, p.root, x.1, none⟩, ?_, hP⟩
    exact List.mem_flatMap.mpr ⟨p, hp, List.mem_flatMap.mpr ⟨x, hx, List.mem_cons_self⟩⟩

/-! ## When a run succeeds -/

/-- A run succeeds if units were migrated. -/
theorem runWith_ok_iff :
    (∃ report, (m.runWith fmt t w).result = .ok report) ↔
      0 < ((w.inScope m.project).foldl m.step (m.begin t w)).report.migrated := by
  constructor
  · rintro ⟨report, h⟩
    obtain ⟨ran, hran⟩ : ∃ ran, (m.run t w).result = .ok ran := by
      cases hresult : (m.run t w).result with
      | ok ran => exact ⟨ran, rfl⟩
      | error f =>
        cases fmt with
        | none =>
          have h : (m.run t w).result = .ok report := h
          rw [hresult] at h
          cases h
        | some f =>
          unfold runWith format at h
          simp [hresult] at h
    rcases run_cases m t w with ⟨name, -, -, hrun⟩ | hrun
    · rw [hrun] at hran
      cases hran
    · rw [hrun, finish_eq] at hran
      dsimp only at hran
      split at hran
      · next hsucceeded => simpa [Report.succeeded] using hsucceeded
      · cases hran
  · intro hpos
    cases hresult : (m.runWith fmt t w).result with
    | ok report => exact ⟨report, rfl⟩
    | error f =>
      have hzero := (run_of_error (runWith_of_error hresult).2).2.2
      omega

/-- The units that a run migrates. -/
theorem migrated_foldl_pos_iff (hw : w.Named) :
    0 < ((w.inScope m.project).foldl m.step (m.begin t w)).report.migrated ↔
      ∃ u ∈ w.units m.profile.executor m.project, u.target ∈ m.migratedTargets t w u.project := by
  have hcounts := (report_foldl (m := m) (s := m.begin t w)
    (Workspace.nodup_inScope hw.projects m.project) (hw.inScope m.project)).1
  rw [exists_unit_iff fun name n => n ∈ m.migratedTargets t w name, hcounts,
    Nat.pos_iff_ne_zero]
  have hzero : (m.begin t w).report.migrated = 0 := rfl
  rw [hzero, Nat.zero_add, ne_eq, List.sum_eq_zero_iff]
  push Not
  constructor
  · rintro ⟨units, hunits, hne⟩
    obtain ⟨p, hp, rfl⟩ := List.mem_map.mp hunits
    have hmoved : m.migratedTargets t w p.name ≠ [] := by
      intro hnone
      apply hne
      have hnone : m.stepsTargets (m.begin t w) (w.inScope m.project) p.name = [] := hnone
      simp [hnone, migratedUnits]
    obtain ⟨n, hn⟩ := List.exists_mem_of_ne_nil _ hmoved
    obtain ⟨-, hbound⟩ := bound_of_mem_migratedTargets hw (Workspace.mem_of_mem_inScope hp) hn
    obtain ⟨x, hx, rfl⟩ := List.mem_map.mp hbound
    exact ⟨p, hp, x, hx, hn⟩
  · rintro ⟨p, hp, x, hx, hn⟩
    refine ⟨_, List.mem_map_of_mem hp, ?_⟩
    have hamong : ∀ n ∈ m.migratedTargets t w p.name, n ∈ (m.bound p).map Prod.fst := fun n hn =>
      (bound_of_mem_migratedTargets hw (Workspace.mem_of_mem_inScope hp) hn).2
    exact mt (migratedUnits_eq_zero_iff hamong).mp (List.ne_nil_of_mem hn)

/-- Where nothing is bound to the executor a run fails at once. -/
theorem runWith_of_unbound (hproject : ∀ name, m.project = some name → w.project? name ≠ none)
    (h : ∀ p ∈ w.inScope m.project, m.bound p = []) :
    m.runWith fmt t w = ⟨t, w, .error .nothingMigrated⟩ := by
  have hsteps (s : State) (ps : List Project) (h : ∀ p ∈ ps, m.bound p = []) :
      ps.foldl m.step s = s := by
    induction ps with
    | nil => rfl
    | cons p ps ih =>
      rw [List.foldl_cons, step_of_unbound (h p List.mem_cons_self)]
      exact ih fun q hq => h q (List.mem_cons_of_mem _ hq)
  have hrun : m.run t w = ⟨t, w, .error .nothingMigrated⟩ := by
    rcases run_cases m t w with ⟨name, hname, hnone, -⟩ | hrun
    · exact absurd hnone (hproject name hname)
    · rw [hrun, hsteps _ _ h]
      rfl
  cases fmt with
  | none => exact hrun
  | some f =>
    unfold runWith format
    simp [hrun]

/-! ## The whole run -/

/-- A run succeeds if units are migrated.  Then every project with bound targets in scope is
reported once, every default unit in scope counts either as migrated, together with the
configurations of its target, or as skipped, and the skipped ones are those that are still
bound.  So once nothing was skipped the next run fails and changes nothing. -/
theorem units_conserved (m : Migration) (fmt : Option Formatter) (t : Staging) (w : Workspace)
    (hw : w.Named) :
    ((∃ report, (m.runWith fmt t w).result = .ok report) ↔
      ∃ u ∈ w.units m.profile.executor m.project, u.target ∈ m.migratedTargets t w u.project) ∧
    ∀ report, (m.runWith fmt t w).result = .ok report →
      report.projects.keys.Nodup ∧
      report.projects.keys =
        ((w.inScope m.project).filter fun p => !(m.bound p).isEmpty).map Project.name ∧
      (∀ n ∈ report.projects.keys, report.Migrated n ∨ report.Skipped n) ∧
      report.migrated = ((w.inScope m.project).map fun p =>
        (((m.bound p).filter fun x => x.1 ∈ m.migratedTargets t w p.name).map fun x =>
          1 + x.2.configurationNames.length).sum).sum ∧
      report.skipped = (w.units m.profile.executor m.project).countP (fun u =>
        u.isBase && decide (u.target ∉ m.migratedTargets t w u.project)) ∧
      ((m.runWith fmt t w).workspace.units m.profile.executor m.project).countP Unit_.isBase =
        report.skipped ∧
      (report.skipped = 0 → ∀ (fmt' : Option Formatter) (t' : Staging),
        m.runWith fmt' t' (m.runWith fmt t w).workspace =
          ⟨t', (m.runWith fmt t w).workspace, .error .nothingMigrated⟩) := by
  refine ⟨runWith_ok_iff.trans (migrated_foldl_pos_iff hw), fun report h => ?_⟩
  have hnames := Workspace.nodup_inScope hw.projects m.project
  have hkeys := hw.inScope m.project
  obtain ⟨later, lines, hreport⟩ := report_runWith h
  obtain ⟨hmigrated, hskipped⟩ := report_foldl (m := m) (s := m.begin t w) hnames hkeys
  have hentries : report.projects.keys =
      ((w.inScope m.project).filter fun p => !(m.bound p).isEmpty).map Project.name := by
    rw [hreport]
    exact keys_foldl (s := m.begin t w) hnames hkeys fun p _ hp => by cases hp
  have hscope : (m.runWith fmt t w).workspace.inScope m.project =
      (w.inScope m.project).map fun p => m.reworked (m.migratedTargets t w p.name) p :=
    inScope_map_reworked (m.migratedTargets t w) (workspace_runWith hw h) m.project
  have hleft : ((m.runWith fmt t w).workspace.units m.profile.executor m.project).countP
      Unit_.isBase = report.skipped := by
    rw [countP_isBase_units, hscope, List.map_map, hreport]
    have hzero : (m.begin t w).report.skipped = 0 := rfl
    refine Eq.trans ?_ (hskipped.trans (by rw [hzero, Nat.zero_add])).symm
    congr 1
    exact List.map_congr_left fun p _ => length_bound_reworked _ p
  have hnodup : report.projects.keys.Nodup := by
    rw [hentries]
    exact hnames.sublist (List.filter_sublist.map _)
  refine ⟨hnodup, hentries, ?_, ?_, ?_, hleft, ?_⟩
  · intro n hn
    obtain ⟨⟨k, outcome⟩, hentry, rfl⟩ := List.mem_map.mp hn
    have hget := OrderedMap.get?_of_mem hnodup hentry
    cases outcome with
    | migrated units config => exact .inl ⟨units, config, hget⟩
    | skipped reason => exact .inr ⟨reason, hget⟩
  · rw [hreport]
    have hzero : (m.begin t w).report.migrated = 0 := rfl
    rw [hzero, Nat.zero_add] at hmigrated
    exact hmigrated
  · rw [countP_units fun name n => decide (n ∉ m.migratedTargets t w name), hreport]
    have hzero : (m.begin t w).report.skipped = 0 := rfl
    rw [hzero, Nat.zero_add] at hskipped
    exact hskipped
  · intro hnone fmt' t'
    refine runWith_of_unbound ?_ ?_
    · intro name hproject hgone
      -- a project that is not there has nothing to migrate
      have hempty := Workspace.inScope_of_project?_eq_none hgone
      rw [← hproject, hscope, List.map_eq_nil_iff] at hempty
      have hpos := runWith_ok_iff.mp ⟨report, h⟩
      rw [hempty] at hpos
      exact absurd hpos (Nat.lt_irrefl 0)
    · intro p hp
      rw [hnone, countP_isBase_units, List.sum_eq_zero_iff] at hleft
      exact List.eq_nil_of_length_eq_zero (hleft _ (List.mem_map_of_mem hp))

theorem units_conserved_halfway :
    ∃ report, (retire.runWith none shelf ⟨[sharing, halfway]⟩).result = .ok report ∧
      report.migrated = 1 ∧ report.skipped = 2 ∧
      ((retire.runWith none shelf ⟨[sharing, halfway]⟩).workspace.units
        retire.profile.executor retire.project).countP Unit_.isBase = 2 := by
  have hnamed : Workspace.Named ⟨[sharing, halfway]⟩ := by
    refine ⟨by decide, fun p hp => ?_⟩
    rcases List.mem_pair.mp hp with rfl | rfl
    · decide
    · decide
  obtain ⟨hsucceeds, hcounts⟩ := units_conserved retire none shelf ⟨[sharing, halfway]⟩ hnamed
  obtain ⟨report, hreport⟩ := hsucceeds.mpr (by decide +kernel)
  obtain ⟨-, -, -, hmigrated, hskipped, hleft, -⟩ := hcounts report hreport
  have hone : report.migrated = 1 := hmigrated.trans (by decide +kernel)
  have htwo : report.skipped = 2 := hskipped.trans (by decide +kernel)
  exact ⟨report, hreport, hone, htwo, hleft.trans htwo⟩

end Retarget.Migration
