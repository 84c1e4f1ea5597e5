import Mathlib.Data.List.Nodup
import Retarget.Proofs.Migration.BoundTargets
import Retarget.Proofs.Migration.SkippedProject

/-!
# The account of a run

A step of a run migrates some targets of its project, or none if the project fails.
`Adds` is what the step adds to the workspace and to the report in terms of these
targets alone.  A run adds this up: `migratedTargets` are the targets of each project
that it migrates, and the workspace, the counts and the outcomes follow from them.
-/

namespace Retarget

namespace Migration

variable {m : Migration} {p q : Project} {s s' : State} {t : Staging} {w : Workspace}
  {ps : List Project} {names : List String}

/-- The targets whose default options a step migrates; none if the project fails. -/
def stepTargets (m : Migration) (s : State) (p : Project) : List String :=
  match (m.migrateProject s.staging p (Workspace.unitsOfProject m.profile.executor p)).2 with
  | .ok _ => m.taken s.staging p
  | .error _ => []

/-- The targets of each project whose default options are migrated in some steps. -/
def stepsTargets (m : Migration) : State → List Project → String → List String
  | _, [], _ => []
  | s, p :: ps, name =>
    if name = p.name then m.stepTargets s p else stepsTargets m (m.step s p) ps name

/-- The targets of each project whose default options a run migrates. -/
def migratedTargets (m : Migration) (t : Staging) (w : Workspace) : String → List String :=
  m.stepsTargets (m.begin t w) (w.inScope m.project)

/-- What a step adds, by the targets that it migrates. -/
structure Adds (m : Migration) (s : State) (p : Project) (names : List String) (s' : State) :
    Prop where
  among : ∀ n ∈ names, n ∈ (m.bound p).map Prod.fst
  workspace : s'.workspace =
    if names = [] then s.workspace else s.workspace.put (m.reworked names p)
  migrated : s'.report.migrated = s.report.migrated + m.migratedUnits names p
  skipped : s'.report.skipped = s.report.skipped + m.keptBases names p
  unbound : m.bound p = [] → s'.report.projects = s.report.projects
  bound : m.bound p ≠ [] → ∃ outcome,
    s'.report.projects = s.report.projects.insert p.name outcome ∧
      ((∃ units config, outcome = .migrated units config) ↔ names ≠ [])
  warnings : ∃ ws, s'.report.warnings = s.report.warnings ++ ws ∧
    (names ≠ [] → m.ProjectWarnings names p ws)

/-- The default options among the units of a project are those of its bound targets. -/
theorem countP_unitsOfProject (P : String → String → Bool) (p : Project) :
    (Workspace.unitsOfProject m.profile.executor p).countP
        (fun u => u.isBase && P u.project u.target) =
      (m.bound p).countP fun x => P p.name x.1 := by
  have single (x : String × Target) :
      (Workspace.unitsOfTarget p x.1 x.2).countP (fun u => u.isBase && P u.project u.target) =
        if P p.name x.1 then 1 else 0 := by
    have hvariants : (x.2.configurationNames.map fun c =>
        (⟨p.name, p.root, x.1, some c⟩ : Unit_)).countP
          (fun u => u.isBase && P u.project u.target) = 0 := by
      rw [List.countP_eq_zero]
      simp [Unit_.isBase]
    rw [Workspace.unitsOfTarget, List.countP_cons, hvariants]
    simp [Unit_.isBase]
  have all (xs : List (String × Target)) :
      (xs.flatMap fun x => Workspace.unitsOfTarget p x.1 x.2).countP
          (fun u => u.isBase && P u.project u.target) = xs.countP fun x => P p.name x.1 := by
    induction xs with
    | nil => rfl
    | cons x xs ih =>
      rw [List.flatMap_cons, List.countP_append, single, ih, List.countP_cons, Nat.add_comm]
  exact all (m.bound p)

theorem countP_isBase_unitsOfProject (p : Project) :
    (Workspace.unitsOfProject m.profile.executor p).countP Unit_.isBase = (m.bound p).length := by
  simpa using countP_unitsOfProject (m := m) (fun _ _ => true) p

theorem unitsOfProject_eq_nil_iff (p : Project) :
    Workspace.unitsOfProject m.profile.executor p = [] ↔ m.bound p = [] := by
  constructor
  · intro hunits
    have hcount := countP_isBase_unitsOfProject (m := m) p
    rw [hunits] at hcount
    exact List.eq_nil_of_length_eq_zero hcount.symm
  · intro hbound
    unfold bound at hbound
    rw [Workspace.unitsOfProject, hbound]
    rfl

/-- A project without bound targets is passed over. -/
theorem step_of_unbound (h : m.bound p = []) : m.step s p = s := by
  have hunits := (unitsOfProject_eq_nil_iff p).mpr h
  unfold step
  simp [hunits]

/-- What a step adds. -/
theorem adds_step (m : Migration) (s : State) (hkeys : (OrderedMap.keys p.targets).Nodup) :
    m.Adds s p (m.stepTargets s p) (m.step s p) := by
  by_cases hbound : m.bound p = []
  · -- there is nothing to do for the project
    have hunits := (unitsOfProject_eq_nil_iff p).mpr hbound
    have hnames : m.stepTargets s p = [] := by
      simp [stepTargets, hunits, migrateProject, migrateUnits, Work.start, taken, hbound,
        takenFrom]
    rw [step_of_unbound hbound, hnames]
    refine ⟨by simp, rfl, ?_, ?_, fun _ => rfl, fun hne => absurd hbound hne, [], by simp, by simp⟩
    · simp [migratedUnits, hbound]
    · simp [keptBases, hbound]
  · have hunits : (Workspace.unitsOfProject m.profile.executor p).isEmpty = false := by
      rw [List.isEmpty_eq_false_iff]
      exact mt (unitsOfProject_eq_nil_iff p).mp hbound
    unfold stepTargets
    generalize hrun : m.migrateProject s.staging p
      (Workspace.unitsOfProject m.profile.executor p) = run
    obtain ⟨u, f | ⟨w, written⟩⟩ := run
    · rw [step_of_error hrun]
      dsimp only
      refine ⟨by simp, rfl, ?_, ?_, fun h => absurd h hbound, fun _ => ⟨_, rfl, by simp⟩,
        [_], rfl, by simp⟩
      · simp [Report.addSkipped, Report.warn, migratedUnits]
      · simp [Report.addSkipped, Report.warn, keptBases, countP_isBase_unitsOfProject]
    · have haccount := accounted_migrateProject hkeys hrun
      rw [step_of_ok hunits hrun]
      dsimp only
      by_cases hzero : w.migrated = 0
      · have hnames := (migratedUnits_eq_zero_iff haccount.among).mp (haccount.migrated ▸ hzero)
        have hskipped := haccount.skipped
        rw [if_pos hzero]
        rw [hnames] at hskipped ⊢
        refine ⟨by simp, rfl, ?_, ?_, fun h => absurd h hbound, fun _ => ⟨_, rfl, by simp⟩,
          _, rfl, by simp⟩
        · simp [Report.addSkipped, migratedUnits]
        · simp [Report.addSkipped, keptBases, hskipped]
      · have hnames := mt (migratedUnits_eq_zero_iff haccount.among).mpr (haccount.migrated ▸ hzero)
        rw [if_neg hzero]
        refine ⟨haccount.among, ?_, ?_, ?_, fun h => absurd h hbound,
          fun _ => ⟨_, rfl, by simpa using hnames⟩, _, rfl, fun _ => haccount.warnings⟩
        · rw [if_neg hnames, haccount.project hzero]
        · simp [Report.addMigrated, migratedUnits, haccount.migrated]
        · simp [Report.addMigrated, keptBases, haccount.skipped]

/-! ## Steps one after the other -/

theorem stepsTargets_of_ne {name : String} (h : ∀ p ∈ ps, p.name ≠ name) :
    m.stepsTargets s ps name = [] := by
  induction ps generalizing s with
  | nil => rfl
  | cons p ps ih =>
    rw [stepsTargets, if_neg (h p List.mem_cons_self).symm]
    exact ih fun q hq => h q (List.mem_cons_of_mem _ hq)

/-- What is made of the targets of each project, over some projects. -/
theorem map_stepsTargets_cons {β : Type} (hnames : ((p :: ps).map Project.name).Nodup)
    (g : List String → Project → β) :
    ((p :: ps).map fun q => g (m.stepsTargets s (p :: ps) q.name) q) =
      g (m.stepTargets s p) p ::
        ps.map fun q => g (m.stepsTargets (m.step s p) ps q.name) q := by
  rw [List.map_cons, stepsTargets, if_pos rfl]
  congr 1
  refine List.map_congr_left fun q hq => ?_
  have hne : q.name ≠ p.name := fun e =>
    (List.nodup_cons.mp hnames).1 (e ▸ List.mem_map_of_mem hq)
  rw [stepsTargets, if_neg hne]

theorem report_foldl (hnames : (ps.map Project.name).Nodup)
    (hkeys : ∀ p ∈ ps, (OrderedMap.keys p.targets).Nodup) :
    (ps.foldl m.step s).report.migrated = s.report.migrated +
        (ps.map fun p => m.migratedUnits (m.stepsTargets s ps p.name) p).sum ∧
      (ps.foldl m.step s).report.skipped = s.report.skipped +
        (ps.map fun p => m.keptBases (m.stepsTargets s ps p.name) p).sum := by
  induction ps generalizing s with
  | nil => exact ⟨rfl, rfl⟩
  | cons p ps ih =>
    have hadds := adds_step m s (hkeys p List.mem_cons_self)
    obtain ⟨hmigrated, hskipped⟩ := ih (s := m.step s p) (List.nodup_cons.mp hnames).2
      fun q hq => hkeys q (List.mem_cons_of_mem _ hq)
    rw [List.foldl_cons, map_stepsTargets_cons hnames, map_stepsTargets_cons hnames, hmigrated,
      hskipped, hadds.migrated, hadds.skipped]
    simp [Nat.add_assoc]

/-- Every project with bound targets is reported once. -/
theorem keys_foldl (hnames : (ps.map Project.name).Nodup)
    (hkeys : ∀ p ∈ ps, (OrderedMap.keys p.targets).Nodup)
    (hnew : ∀ p ∈ ps, p.name ∉ s.report.projects.keys) :
    (ps.foldl m.step s).report.projects.keys =
      s.report.projects.keys ++ (ps.filter fun p => !(m.bound p).isEmpty).map Project.name := by
  induction ps generalizing s with
  | nil => simp
  | cons p ps ih =>
    obtain ⟨hp, hps⟩ := List.nodup_cons.mp hnames
    have hadds := adds_step m s (hkeys p List.mem_cons_self)
    have hstep : (m.step s p).report.projects.keys =
        s.report.projects.keys ++ if (m.bound p).isEmpty then [] else [p.name] := by
      by_cases hbound : m.bound p = []
      · simp [hadds.unbound hbound, hbound]
      · obtain ⟨outcome, hprojects, -⟩ := hadds.bound hbound
        rw [hprojects, OrderedMap.insert_of_not_mem (hnew p List.mem_cons_self)]
        simp [OrderedMap.keys, hbound]
    rw [List.foldl_cons, ih hps (fun q hq => hkeys q (List.mem_cons_of_mem _ hq)), hstep]
    · by_cases hbound : m.bound p = []
      · simp [hbound]
      · simp [hbound]
    · intro q hq hmem
      have hne : q.name ≠ p.name := fun e => hp (e ▸ List.mem_map_of_mem hq)
      rw [hstep] at hmem
      rcases List.mem_append.mp hmem with hmem | hmem
      · exact hnew q (List.mem_cons_of_mem _ hq) hmem
      · split at hmem
        · cases hmem
        · exact hne (List.mem_singleton.mp hmem)

/-- A project is reported as migrated if targets of it were migrated. -/
theorem migrated_foldl_iff (hnames : (ps.map Project.name).Nodup)
    (hkeys : ∀ p ∈ ps, (OrderedMap.keys p.targets).Nodup)
    (hs : ∀ p ∈ ps, ¬s.report.Migrated p.name) (hp : p ∈ ps) :
    (ps.foldl m.step s).report.Migrated p.name ↔ m.stepsTargets s ps p.name ≠ [] := by
  induction ps generalizing s with
  | nil => cases hp
  | cons q ps ih =>
    obtain ⟨hq, hps⟩ := List.nodup_cons.mp hnames
    have hlater : ∀ r ∈ ps, r.name ≠ q.name := fun r hr e => hq (e ▸ List.mem_map_of_mem hr)
    rw [List.foldl_cons]
    rcases List.mem_cons.mp hp with rfl | hp
    · have hadds := adds_step m s (hkeys p List.mem_cons_self)
      rw [migrated_foldl_of_ne hlater, stepsTargets, if_pos rfl]
      by_cases hbound : m.bound p = []
      · have hnone : m.stepTargets s p = [] := by
          rw [List.eq_nil_iff_forall_not_mem]
          intro n hn
          simpa [hbound] using hadds.among n hn
        have hnot := hs p List.mem_cons_self
        unfold Report.Migrated at hnot ⊢
        rw [hadds.unbound hbound, hnone]
        simpa using hnot
      · obtain ⟨outcome, hprojects, houtcome⟩ := hadds.bound hbound
        rw [← houtcome]
        unfold Report.Migrated
        rw [hprojects, OrderedMap.get?_insert_self]
        simp
    · rw [stepsTargets, if_neg (hlater p hp)]
      refine ih hps (fun r hr => hkeys r (List.mem_cons_of_mem _ hr)) (fun r hr => ?_) hp
      unfold Report.Migrated
      rw [projects_step_of_ne (hlater r hr).symm]
      exact hs r (List.mem_cons_of_mem _ hr)

/-- What a migrated project is warned about stands together. -/
theorem warnings_foldl (hnames : (ps.map Project.name).Nodup)
    (hkeys : ∀ p ∈ ps, (OrderedMap.keys p.targets).Nodup) (hp : p ∈ ps)
    (hmoved : m.stepsTargets s ps p.name ≠ []) :
    ∃ earlier ws later, (ps.foldl m.step s).report.warnings = earlier ++ ws ++ later ∧
      m.ProjectWarnings (m.stepsTargets s ps p.name) p ws := by
  have grows (s : State) (ps : List Project)
      (hkeys : ∀ p ∈ ps, (OrderedMap.keys p.targets).Nodup) :
      ∃ later, (ps.foldl m.step s).report.warnings = s.report.warnings ++ later := by
    induction ps generalizing s with
    | nil => exact ⟨[], by simp⟩
    | cons p ps ih =>
      obtain ⟨ws, hws, -⟩ := (adds_step m s (hkeys p List.mem_cons_self)).warnings
      obtain ⟨later, hlater⟩ := ih (m.step s p) fun q hq => hkeys q (List.mem_cons_of_mem _ hq)
      exact ⟨ws ++ later, by rw [List.foldl_cons, hlater, hws, List.append_assoc]⟩
  induction ps generalizing s with
  | nil => cases hp
  | cons q ps ih =>
    obtain ⟨hq, hps⟩ := List.nodup_cons.mp hnames
    have hrest : ∀ r ∈ ps, (OrderedMap.keys r.targets).Nodup := fun r hr =>
      hkeys r (List.mem_cons_of_mem _ hr)
    rw [List.foldl_cons]
    rcases List.mem_cons.mp hp with rfl | hp
    · rw [stepsTargets, if_pos rfl] at hmoved ⊢
      obtain ⟨ws, hws, htold⟩ := (adds_step m s (hkeys p List.mem_cons_self)).warnings
      obtain ⟨later, hlater⟩ := grows (m.step s p) ps hrest
      exact ⟨s.report.warnings, ws, later, by rw [hlater, hws], htold hmoved⟩
    · have hne : p.name ≠ q.name := fun e => hq (e ▸ List.mem_map_of_mem hp)
      rw [stepsTargets, if_neg hne] at hmoved ⊢
      exact ih hps hrest hp hmoved

/-- A project of the workspace is replaced by one of its name. -/
theorem projects_put (hnames : (w.projects.map Project.name).Nodup) (hp : p ∈ w.projects)
    (names : List String) :
    (w.put (m.reworked names p)).projects =
      w.projects.map fun q => m.reworked (if q.name = p.name then names else []) q := by
  have hany : (w.projects.any fun q => q.name = p.name) = true :=
    List.any_eq_true.mpr ⟨p, hp, by simp⟩
  have hplace : Workspace.place w.projects (m.reworked names p) =
      w.projects.map fun q => if q.name = p.name then m.reworked names p else q := by
    unfold Workspace.place
    exact if_pos hany
  rw [Workspace.put, hplace]
  refine List.map_congr_left fun q hq => ?_
  by_cases hname : q.name = p.name
  · -- there is one project of that name
    have hsame : q = p := List.inj_on_of_nodup_map hnames hq hp hname
    simp [hsame]
  · simp [hname, reworked_nil]

/-- Every project is reworked by the targets of it that were migrated. -/
theorem workspace_foldl (hnames : (ps.map Project.name).Nodup)
    (hkeys : ∀ p ∈ ps, (OrderedMap.keys p.targets).Nodup)
    (hs : (s.workspace.projects.map Project.name).Nodup)
    (hthere : ∀ p ∈ ps, p ∈ s.workspace.projects) :
    (ps.foldl m.step s).workspace.projects =
      s.workspace.projects.map fun q => m.reworked (m.stepsTargets s ps q.name) q := by
  induction ps generalizing s with
  | nil => simp [stepsTargets, reworked_nil]
  | cons p ps ih =>
    obtain ⟨hp, hps⟩ := List.nodup_cons.mp hnames
    have hstep : (m.step s p).workspace.projects = s.workspace.projects.map fun q =>
        m.reworked (if q.name = p.name then m.stepTargets s p else []) q := by
      rw [(adds_step m s (hkeys p List.mem_cons_self)).workspace]
      split
      · next hnone => simp [hnone, reworked_nil]
      · exact projects_put hs (hthere p List.mem_cons_self) _
    have hname (names : List String) (q : Project) : (m.reworked names q).name = q.name := rfl
    rw [List.foldl_cons, ih hps (fun q hq => hkeys q (List.mem_cons_of_mem _ hq)), hstep,
      List.map_map]
    · refine List.map_congr_left fun q _ => ?_
      by_cases hq : q.name = p.name
      · have hlater : m.stepsTargets (m.step s p) ps p.name = [] :=
          stepsTargets_of_ne fun r hr e => hp (e ▸ List.mem_map_of_mem hr)
        simp [stepsTargets, hname, hq, hlater, reworked_nil]
      · simp [stepsTargets, hq, reworked_nil]
    · rw [hstep, List.map_map]
      exact hs
    · intro q hq
      have hne : q.name ≠ p.name := fun e => hp (e ▸ List.mem_map_of_mem hq)
      rw [hstep]
      exact List.mem_map.mpr ⟨q, hthere q (List.mem_cons_of_mem _ hq), by simp [hne, reworked_nil]⟩

/-! ## The end of a run -/

/-- A formatter changes nothing in a report, but it may add a warning. -/
theorem report_runWith {fmt : Option Formatter} {report : Report}
    (h : (m.runWith fmt t w).result = .ok report) :
    ∃ later lines, report = { ((w.inScope m.project).foldl m.step (m.begin t w)).report with
      warnings := ((w.inScope m.project).foldl m.step (m.begin t w)).report.warnings ++ later
      lineCount := lines } := by
  cases fmt with
  | none =>
    obtain ⟨-, rfl⟩ := run_of_ok h rfl
    exact ⟨[], _, by rw [List.append_nil]⟩
  | some f =>
    cases hresult : (m.run t w).result with
    | error g =>
      unfold runWith format at h
      simp [hresult] at h
    | ok ran =>
      obtain ⟨-, rfl⟩ := run_of_ok hresult rfl
      unfold runWith format at h
      simp only [hresult] at h
      split at h
      · next hok hdisk =>
        obtain rfl := Except.ok.inj hok
        split at h
        · rw [hresult] at h
          obtain rfl := Except.ok.inj h
          exact ⟨[], _, by rw [List.append_nil]⟩
        · obtain rfl := Except.ok.inj h
          split
          · exact ⟨[], _, by rw [List.append_nil]⟩
          · exact ⟨[_], _, rfl⟩
      · rw [hresult] at h
        obtain rfl := Except.ok.inj h
        exact ⟨[], _, by rw [List.append_nil]⟩

end Migration

end Retarget
