import Retarget.Proofs.Migration.Effects
import Retarget.Proofs.Migration.Refinement
import Retarget.Proofs.Migration.Rewriting

/-!
# The log of a run

What a run that flushes nothing to a disk adds to the log falls into parts, one for each
project in scope.  The part of a migrated project rewrites the old configs of its migrated
targets, each of them once, and then its document; all other parts are empty.
-/

namespace Retarget

/-- What a path shows depends on the log and the disk. -/
theorem Staging.asOf_congr {t u : Staging} (h : t.disk = u.disk) (log : List Staged)
    (x : Location) : (t.asOf log).read x = (u.asOf log).read x := by
  simp only [asOf, read, readDisk, h]

namespace Migration

variable {m : Migration} {p : Project} {s : State} {t : Staging} {w : Workspace}
  {ps : List Project} {x : Location} {fmt : Option Formatter}

theorem Faithful.congr {u : Staging} {log : List Staged} {swaps : List Swap}
    (h : m.Faithful p t log swaps) (hdisk : t.disk = u.disk) : m.Faithful p u log swaps :=
  ⟨fun before s after hsplit => by
    rw [← Staging.asOf_congr hdisk]; exact h.held before s after hsplit, h.written⟩

/-- The part of the log that belongs to a project some targets of which are migrated: the
old configs are rewritten, then the document. -/
structure Rewrites (m : Migration) (t : Staging) (log : List Staged) (p : Project)
    (names : List String) (ops : List Staged) (swaps : List Swap) : Prop where
  /-- one swap for each old config -/
  configs : swaps.map Swap.config = m.usedConfigs names (m.bound p)
  /-- what is moved is what was there, and what is written is the rendering of that -/
  faithful : m.Faithful p t log swaps
  operations : ops = m.operations swaps ++
    [.write p.configPath.location (m.reworked names p).toText]

/-- What a step adds to the log. -/
theorem rewrites_effect (hs : s.staging.Coherent) (honly : m.StagesOnly s.staging)
    (hkeys : (OrderedMap.keys p.targets).Nodup) :
    (m.stepTargets s p = [] → (m.effect s.staging p).operations = []) ∧
      (m.stepTargets s p ≠ [] → ∃ swaps, m.Rewrites s.staging s.staging.log p
        (m.stepTargets s p) (m.effect s.staging p).operations swaps) := by
  have hmigrate := migrateProject_eq m s.staging p (Workspace.unitsOfProject m.profile.executor p)
  have hflushes := flushes_of_stagesOnly honly p
  have hadds := adds_step m s hkeys
  have heffect := effected_effect m s.staging p
  generalize m.effect s.staging p = e at heffect
  unfold flushes at hflushes
  cases heffect with
  | unbound hunits =>
    refine ⟨fun _ => rfl, fun hne => ?_⟩
    obtain ⟨n, hn⟩ := List.exists_mem_of_ne_nil _ hne
    have hbound := (unitsOfProject_eq_nil_iff p).mp (List.isEmpty_iff.mp hunits)
    simpa [hbound] using hadds.among n hn
  | failed _ hrun =>
    rw [hrun] at hmigrate
    refine ⟨fun _ => rfl, fun hne => ?_⟩
    simp [stepTargets, hmigrate] at hne
  | idle _ hrun hzero =>
    rw [hrun] at hmigrate
    simp only [hzero, true_or, if_true] at hmigrate
    have haccount := accounted_migrateProject hkeys hmigrate
    refine ⟨fun _ => rfl, fun hne => absurd ?_ hne⟩
    simp only [stepTargets, hmigrate]
    exact (migratedUnits_eq_zero_iff haccount.among).mp (haccount.migrated ▸ hzero)
  | @migrated u w _ hrun hsome hlog =>
    have hok : ∃ v written, m.migrateProject s.staging p
        (Workspace.unitsOfProject m.profile.executor p) = (v, .ok (w, written)) := by
      rw [hrun] at hmigrate hflushes
      rw [hmigrate]
      by_cases hdry : m.dryRun = true
      · exact ⟨u, [], by simp [hdry]⟩
      · rcases hflush : u.flush with ⟨v, f | written⟩
        · simp [hdry, hsome, hflush, Except.isOk, Except.toBool] at hflushes
        · exact ⟨v, written, by simp [hsome, hdry, hflush]⟩
    obtain ⟨v, written, hok⟩ := hok
    have htargets : m.stepTargets s p = m.taken s.staging p := by
      simp only [stepTargets, hok]
    have haccount := accounted_migrateProject hkeys hok
    have hne := mt (migratedUnits_eq_zero_iff haccount.among).mpr (haccount.migrated ▸ hsome)
    obtain ⟨swaps, hconfigs, hfaithful, hstaged⟩ := rewritten_prepare hkeys hs hrun hsome
    rw [htargets]
    exact ⟨fun hnone => absurd hnone hne, fun _ => ⟨swaps, hconfigs, hfaithful, by
      rw [hstaged, List.drop_left]⟩⟩

/-- The parts of the log of a run, one for each project. -/
theorem rewrites_foldl (hs : s.staging.Coherent) (honly : m.StagesOnly s.staging)
    (hnames : (ps.map Project.name).Nodup)
    (hkeys : ∀ p ∈ ps, (OrderedMap.keys p.targets).Nodup) :
    ∃ parts : List (Project × List Staged), parts.map Prod.fst = ps ∧
      (ps.foldl m.step s).staging.log = s.staging.log ++ parts.flatMap Prod.snd ∧
      ∀ before x after, parts = before ++ x :: after →
        (m.stepsTargets s ps x.1.name = [] → x.2 = []) ∧
        (m.stepsTargets s ps x.1.name ≠ [] → ∃ swaps, m.Rewrites s.staging
          (s.staging.log ++ before.flatMap Prod.snd) x.1 (m.stepsTargets s ps x.1.name) x.2
          swaps) := by
  induction ps generalizing s with
  | nil => exact ⟨[], rfl, by simp, by simp⟩
  | cons p ps ih =>
    obtain ⟨hp, hps⟩ := List.nodup_cons.mp hnames
    have hstep := extends_step hs honly p
    obtain ⟨parts, hfst, hlog, hparts⟩ := ih (coherent_step hs p) (honly.step p) hps
      fun q hq => hkeys q (List.mem_cons_of_mem _ hq)
    have hone := rewrites_effect hs honly (hkeys p List.mem_cons_self)
    refine ⟨(p, (m.effect s.staging p).operations) :: parts, by rw [List.map_cons, hfst], ?_, ?_⟩
    · rw [List.foldl_cons, hlog, hstep.log, List.flatMap_cons, List.append_assoc]
    · intro before x after hsplit
      rcases before with _ | ⟨y, before⟩
      · obtain ⟨rfl, rfl⟩ := List.cons.inj hsplit
        simpa [stepsTargets] using hone
      · have hsplit' : parts = before ++ x :: after := (List.cons.inj hsplit).2
        obtain rfl : (p, (m.effect s.staging p).operations) = y := (List.cons.inj hsplit).1
        have hx : x.1 ∈ ps := by
          rw [← hfst, hsplit']
          simp
        have hne : x.1.name ≠ p.name := fun e => hp (e ▸ List.mem_map_of_mem hx)
        have hbefore : s.staging.log ++ List.flatMap Prod.snd
            ((p, (m.effect s.staging p).operations) :: before) =
              (m.step s p).staging.log ++ before.flatMap Prod.snd := by
          rw [hstep.log, List.flatMap_cons, List.append_assoc]
        rw [stepsTargets, if_neg hne, hbefore]
        refine ⟨(hparts before x after hsplit').1, fun hmoved => ?_⟩
        obtain ⟨swaps, hrewrites⟩ := (hparts before x after hsplit').2 hmoved
        exact ⟨swaps, hrewrites.configs, hrewrites.faithful.congr hstep.disk,
          hrewrites.operations⟩

/-! ## The log of a run -/

/-- A formatter does not make a run fail. -/
theorem runWith_ok {report : Report} (fmt : Option Formatter)
    (h : (m.run t w).result = .ok report) : ∃ r, (m.runWith fmt t w).result = .ok r := by
  cases fmt with
  | none => exact ⟨report, h⟩
  | some f =>
    unfold runWith format
    dsimp only
    rw [h]
    cases hdisk : (m.run t w).staging.disk with
    | none => exact ⟨report, h⟩
    | some d =>
      by_cases hdry : report.dryRun = true
      · exact ⟨report, by simp [hdry, h]⟩
      · exact ⟨_, by simp [hdry]; rfl⟩

/-- A run that does not find the project that it asks for has none in scope. -/
theorem staging_run (m : Migration) (t : Staging) (w : Workspace) :
    (m.run t w).staging = ((w.inScope m.project).foldl m.step (m.begin t w)).staging := by
  rcases run_cases m t w with ⟨name, hname, hnone, hrun⟩ | hrun
  · rw [hrun, hname, Workspace.inScope_of_project?_eq_none hnone]
    rfl
  · rw [hrun, finish_eq]

theorem workspace_run (m : Migration) (t : Staging) (w : Workspace) :
    (m.run t w).workspace = ((w.inScope m.project).foldl m.step (m.begin t w)).workspace := by
  rcases run_cases m t w with ⟨name, hname, hnone, hrun⟩ | hrun
  · rw [hrun, hname, Workspace.inScope_of_project?_eq_none hnone]
    rfl
  · rw [hrun, finish_eq]

/-- What a run that flushes nothing leaves: a formatter has nothing to do. -/
theorem staging_runWith (fmt : Option Formatter) (honly : m.StagesOnly t) (w : Workspace) :
    (m.runWith fmt t w).staging =
      ((w.inScope m.project).foldl m.step (m.begin t w)).staging := by
  have hrun := staging_run m t w
  cases hresult : (m.run t w).result with
  | error g =>
    rw [← hrun]
    cases fmt with
    | none => rfl
    | some f => simp [runWith, format, hresult]
  | ok report =>
    obtain ⟨r, hr⟩ := runWith_ok fmt hresult
    rcases (runWith_of_ok hr rfl).2.2 with h | ⟨hwet, f, d, -, hdisk, -⟩
    · exact h
    · have hnone : t.disk = none := honly.resolve_left (by simp [hwet])
      have hkept := disk_foldl (s := m.begin t w) honly (w.inScope m.project)
      rw [hdisk] at hkept
      exact absurd (hkept.trans hnone) (by simp)

/-- Whether a run succeeds and reports a project as migrated. -/
def Run.Migrated (r : Run) (name : String) : Prop :=
  ∃ report, r.result = .ok report ∧ report.Migrated name

theorem migrated_iff (fmt : Option Formatter) (hw : w.Named) (hp : p ∈ w.projects) :
    (m.runWith fmt t w).Migrated p.name ↔ m.migratedTargets t w p.name ≠ [] := by
  refine ⟨fun ⟨report, hreport, hmigrated⟩ => (migrated_runWith_iff hw hp hreport).mp hmigrated,
    fun hmoved => ?_⟩
  obtain ⟨n, hn⟩ := List.exists_mem_of_ne_nil _ hmoved
  obtain ⟨hscope, -⟩ := bound_of_mem_migratedTargets hw hp hn
  have hbegin (name : String) : ¬(m.begin t w).report.Migrated name := by
    rintro ⟨units, config, hentry⟩
    cases hentry
  have hreported := (migrated_foldl_iff (s := m.begin t w)
    (Workspace.nodup_inScope hw.projects m.project) (hw.inScope m.project)
    (fun q _ => hbegin q.name) hscope).mpr hmoved
  obtain ⟨report, hreport, -⟩ :=
    finish_of_migrated (counts_foldl fun name h => absurd h (hbegin name)) hreported
  have hrun : m.run t w = finish ((w.inScope m.project).foldl m.step (m.begin t w)) := by
    rcases run_cases m t w with ⟨name, hname, hnone, -⟩ | hrun
    · rw [hname, Workspace.inScope_of_project?_eq_none hnone] at hscope
      cases hscope
    · exact hrun
  obtain ⟨r, hr⟩ := runWith_ok fmt ((congrArg Run.result hrun).trans hreport)
  exact ⟨r, hr, (migrated_runWith_iff hw hp hr).mpr hmoved⟩

/-- A path that the migration of some targets of a project changes: its document, their old
configs and the archives of these. -/
def Changed (m : Migration) (names : List String) (p : Project) (x : Location) : Prop :=
  x = p.configPath.location ∨ ∃ config ∈ m.usedConfigs names (m.bound p),
    x = config ∨ x = m.archive config

theorem Rewrites.changed {log ops : List Staged} {names : List String} {swaps : List Swap}
    (h : m.Rewrites t log p names ops swaps) {op : Staged} (hop : op ∈ ops)
    (hx : x ∈ op.paths) : m.Changed names p x := by
  rw [h.operations, List.mem_append, List.mem_singleton] at hop
  rcases hop with hop | rfl
  · obtain ⟨s, hs, hop⟩ := List.mem_flatMap.mp hop
    have hconfig : s.config ∈ m.usedConfigs names (m.bound p) := by
      rw [← h.configs]
      exact List.mem_map_of_mem hs
    refine .inr ⟨s.config, hconfig, ?_⟩
    rcases List.mem_pair.mp hop with rfl | rfl
    · simpa [Staged.paths] using hx
    · exact .inl (by simpa [Staged.paths] using hx)
  · exact .inl (by simpa [Staged.paths] using hx)

/-- A project two targets of which spell one old config in two ways. -/
def spelledTwice : Project :=
  ((Project.ofRoot "a" ⟨"a"⟩).setTarget "build"
    ((retired "w.js").setConfiguration "ci" [])).setTarget "serve" (retired "./w.js")

end Migration

end Retarget
