import Mathlib.Algebra.Order.BigOperators.Group.List
import Mathlib.Algebra.Order.Group.Nat
import Retarget.Proofs.Migration.Independence

/-!
# Runs over independent projects

`Account` is what a run over independent projects comes to in terms of their effects on
the staging that it begins with.  It can be read off for one project at a time, so neither
the order of the projects nor the presence of the others makes a difference.
-/

namespace Retarget.Migration

variable {m : Migration} {p : Project} {s s' : State} {t : Staging} {w w' : Workspace}
  {ps qs : List Project}

/-- What a run over independent projects comes to. -/
structure Account (m : Migration) (t : Staging) (w : Workspace) (ps : List Project)
    (s : State) : Prop where
  staging : Staging.Extends t (staged (m.effectsOn t ps)) s.staging
  migrated : s.report.migrated = ((m.effectsOn t ps).map fun x => x.2.migrated).sum
  skipped : s.report.skipped = ((m.effectsOn t ps).map fun x => x.2.skipped).sum
  status : ∀ name, s.report.projects.get? name =
    ((m.effectsOn t ps).find? fun x => x.1.name = name).bind fun x => x.2.outcome
  warnings : ∀ name, (s.report.warnings.filter fun x => x.project = some name) =
    (((m.effectsOn t ps).find? fun x => x.1.name = name).map fun x => x.2.warnings).getD []
  project : ∀ name, s.workspace.project? name =
    (((m.effectsOn t ps).find? fun x => x.1.name = name).bind fun x => x.2.project).or
      (w.project? name)

theorem account_foldl (ht : t.Coherent) (honly : m.StagesOnly t) (w : Workspace)
    (h : m.Independent ps) (hnames : (ps.map Project.name).Nodup) :
    m.Account t w ps (ps.foldl m.step (m.begin t w)) := by
  have heffects : m.effects (m.begin t w) ps = m.effectsOn t ps :=
    effects_of_independent (s := m.begin t w) ht honly h
  have hkeys : ((m.effectsOn t ps).map fun x => x.1.name).Nodup := by
    rwa [names_effectsOn]
  have hsigned : ∀ x ∈ m.effectsOn t ps, ∀ y ∈ x.2.warnings, y.project = some x.1.name := by
    intro x hx
    obtain ⟨p, -, rfl⟩ := List.mem_map.mp hx
    exact signed_effect m t p
  have hnamed : ∀ x ∈ m.effectsOn t ps, ∀ q, x.2.project = some q → q.name = x.1.name := by
    intro x hx q hq
    obtain ⟨p, -, rfl⟩ := List.mem_map.mp hx
    exact name_effect hq
  have hstaging := extends_foldl (s := m.begin t w) ht honly ps
  obtain ⟨hworkspace, written, hreport⟩ :=
    told_foldl (s := m.begin t w) ht (flushesAll_of_stagesOnly honly ps)
  rw [heffects] at hstaging hworkspace hreport
  obtain ⟨hmigrated, hskipped⟩ := counts_tell (m.effectsOn t ps) (m.begin t w).report
  refine ⟨hstaging, ?_, ?_, fun name => ?_, fun name => ?_, fun name => ?_⟩
  · rw [hreport]
    exact hmigrated.trans (Nat.zero_add _)
  · rw [hreport]
    exact hskipped.trans (Nat.zero_add _)
  · rw [hreport]
    exact (status_tell hkeys _ name).trans (Option.or_none ..)
  · rw [hreport]
    exact (warnings_tell hkeys hsigned _ name).trans (List.nil_append _)
  · rw [hworkspace]
    exact project?_place hkeys hnamed _ name

/-! ## The order of projects -/

/-- Results that tell the same about every project. -/
inductive SameResult : Except Failure Report → Except Failure Report → Prop
  | error (f : Failure) : SameResult (.error f) (.error f)
  | ok {a b : Report} (migrated : a.migrated = b.migrated) (skipped : a.skipped = b.skipped)
      (lineCount : a.lineCount = b.lineCount)
      (status : ∀ name, a.projects.get? name = b.projects.get? name)
      (warnings : ∀ name, (a.warnings.filter fun x => x.project = some name) =
        b.warnings.filter fun x => x.project = some name) :
      SameResult (.ok a) (.ok b)

/-- Runs that come to the same for every project and at every path. -/
structure SameRun (a b : Run) : Prop where
  result : SameResult a.result b.result
  project : ∀ name, a.workspace.project? name = b.workspace.project? name
  read : ∀ x, a.staging.read x = b.staging.read x

/-- Accounts of the same projects make runs that come to the same. -/
theorem Account.sameRun (h : m.Account t w ps s) (h' : m.Account t w' qs s')
    (hind : m.Independent ps) (hnames : (ps.map Project.name).Nodup)
    (hperm : qs.Perm ps) (hw : ∀ name, w'.project? name = w.project? name) :
    SameRun (finish s') (finish s) := by
  have heffects : (m.effectsOn t qs).Perm (m.effectsOn t ps) := hperm.map _
  have hfind := find?_of_perm (k := fun x => x.1.name) heffects (by rwa [names_effectsOn])
  have hmigrated : s'.report.migrated = s.report.migrated := by
    rw [h.migrated, h'.migrated]
    exact (heffects.map _).sum_eq
  have hskipped : s'.report.skipped = s.report.skipped := by
    rw [h.skipped, h'.skipped]
    exact (heffects.map _).sum_eq
  have hget (x : Location) : s'.staging.overlay.get? x = s.staging.overlay.get? x := by
    rw [h.staging.coherent.overlay_eq, h'.staging.coherent.overlay_eq, h.staging.log,
      h'.staging.log, Staged.replay_append, Staged.replay_append, Staged.get?_foldl_apply,
      Staged.get?_foldl_apply (staged (m.effectsOn t ps)), get?_staged_of_perm hind hperm]
  have hcount : countChanges s'.staging = countChanges s.staging :=
    countChanges_congr h'.staging.coherent h.staging.coherent hget
      fun x _ => (h'.staging.original x).trans (h.staging.original x).symm
  have hsucceeded : s'.report.succeeded = s.report.succeeded := by
    simp only [Report.succeeded, hmigrated]
  rw [finish_eq, finish_eq, hsucceeded]
  refine ⟨?_, fun name => ?_, fun x => ?_⟩
  · dsimp only
    split
    · refine .ok hmigrated hskipped hcount (fun name => ?_) fun name => ?_
      · rw [h.status, h'.status, hfind]
      · rw [h.warnings, h'.warnings, hfind]
    · exact .error _
  · rw [h.project, h'.project, hfind, hw]
  · simp only [Staging.read, Staging.readDisk, hget, h.staging.disk, h'.staging.disk]

/-! ## One project alone -/

/-- The migration of one project only. -/
def only (m : Migration) (name : String) : Migration :=
  { m with project := some name }

/-- Which projects are in scope does not matter for what a run comes to. -/
theorem Account.of_only {name : String} (h : (m.only name).Account t w ps s) :
    m.Account t w ps s := by
  have heffects : (m.only name).effectsOn t ps = m.effectsOn t ps :=
    List.map_congr_left fun p _ => by rw [effect_of_profile (m := m.only name) (n := m) rfl]
  obtain ⟨hstaging, hmigrated, hskipped, hstatus, hwarnings, hproject⟩ := h
  rw [heffects] at hstaging hmigrated hskipped
  simp only [heffects] at hstatus hwarnings hproject
  exact ⟨hstaging, hmigrated, hskipped, hstatus, hwarnings, hproject⟩

/-- A run makes of a project what a run over it alone makes of it. -/
structure AsAlone (m : Migration) (t : Staging) (p : Project) (all one : Run) : Prop where
  value : all.workspace.project? p.name = one.workspace.project? p.name
  texts : ∀ x ∈ m.reach p, all.staging.read x = one.staging.read x
  /-- if something is migrated -/
  status : ∀ b, one.result = .ok b →
    ∃ a, all.result = .ok a ∧ a.projects.get? p.name = b.projects.get? p.name
  /-- if nothing is migrated -/
  idle : ∀ f, one.result = .error f → f = .nothingMigrated ∧
    all.workspace.project? p.name = some p ∧
    (∀ x ∈ m.reach p, all.staging.read x = t.read x) ∧
    ∀ a, all.result = .ok a → ¬a.Migrated p.name

/-- An effect without migrated units changes nothing. -/
theorem effect_idle (h : (m.effect t p).migrated = 0) :
    (m.effect t p).operations = [] ∧ (m.effect t p).project = none ∧
      ∀ units config, (m.effect t p).outcome ≠ some (.migrated units config) := by
  have heffect := effected_effect m t p
  generalize m.effect t p = e at h heffect
  cases heffect with
  | unbound _ => simp
  | failed _ _ => simp
  | idle _ _ _ => simp
  | migrated _ _ hsome _ => exact absurd h hsome

/-- Accounts of some projects and of one of them. -/
theorem Account.asAlone (h : m.Account t w ps s) (h' : m.Account t w [p] s')
    (ht : t.Coherent) (hind : m.Independent ps) (hnames : (ps.map Project.name).Nodup)
    (hp : p ∈ ps) (hw : w.project? p.name = some p) :
    m.AsAlone t p (finish s) (finish s') := by
  have hfind : (m.effectsOn t ps).find? (fun x => x.1.name = p.name) =
      some (p, m.effect t p) := by
    have hkeys : ((m.effectsOn t ps).map fun x => x.1.name).Nodup := by rwa [names_effectsOn]
    exact find?_of_nodup (k := fun x : Project × Effect => x.1.name) hkeys
      (List.mem_map_of_mem hp)
  have hfind' : (m.effectsOn t [p]).find? (fun x => x.1.name = p.name) =
      some (p, m.effect t p) := by
    simp [effectsOn]
  have htexts (x : Location) (hx : x ∈ m.reach p) : s.staging.read x =
      (t.asOf (t.log ++ (m.effect t p).operations)).read x := by
    rw [h.staging.read, Staging.read_asOf_append, Staging.read_asOf_append,
      get?_staged_of_mem hind hp hx]
  have htexts' (x : Location) : s'.staging.read x =
      (t.asOf (t.log ++ (m.effect t p).operations)).read x := by
    rw [h'.staging.read]
    simp [effectsOn, staged]
  have hmigrated : s'.report.migrated = (m.effect t p).migrated := by
    rw [h'.migrated]
    simp [effectsOn]
  have hle : (m.effect t p).migrated ≤ s.report.migrated := by
    rw [h.migrated]
    exact List.single_le_sum (by simp) _
      (List.mem_map.mpr ⟨(p, m.effect t p), List.mem_map_of_mem hp, rfl⟩)
  rw [finish_eq, finish_eq]
  refine ⟨?_, fun x hx => ?_, fun b hb => ?_, fun f hf => ?_⟩
  · rw [h.project, h'.project, hfind, hfind']
  · exact (htexts x hx).trans (htexts' x).symm
  · dsimp only at hb ⊢
    split at hb
    · next hsucceeded =>
      have hpos : 0 < (m.effect t p).migrated := by
        simpa [Report.succeeded, hmigrated] using hsucceeded
      obtain rfl := Except.ok.inj hb
      refine ⟨_, if_pos (by simp [Report.succeeded]; omega), ?_⟩
      rw [h.status, h'.status, hfind, hfind']
    · cases hb
  · dsimp only at hf ⊢
    split at hf
    · cases hf
    · next hfailed =>
      obtain rfl := Except.error.inj hf
      have hzero : (m.effect t p).migrated = 0 := by
        simpa [Report.succeeded, hmigrated] using hfailed
      obtain ⟨hoperations, hproject, houtcome⟩ := effect_idle hzero
      refine ⟨rfl, ?_, fun x hx => ?_, fun a ha => ?_⟩
      · rw [h.project, hfind, hw]
        simp [hproject]
      · rw [htexts x hx, hoperations, List.append_nil, ht.read_asOf rfl]
      · rintro ⟨units, config, hentry⟩
        split at ha
        · obtain rfl := Except.ok.inj ha
          rw [h.status, hfind] at hentry
          exact houtcome units config hentry
        · cases ha

/-! ## Runs -/

/-- The projects in scope that have a name. -/
theorem inScope_of_mem (hnames : (w.projects.map Project.name).Nodup) (hp : p ∈ w.projects) :
    w.inScope (some p.name) = [p] := by
  have hfind := find?_of_nodup hnames hp
  obtain ⟨before, after, hw⟩ := List.append_of_mem hp
  rw [hw] at hnames
  have hothers := name_ne_of_nodup before after hnames
  have hnone (qs : List Project) (hqs : ∀ q ∈ qs, q ∈ before ++ after) :
      qs.filter (fun q => (some p.name).all fun n => q.name = n) = [] := by
    rw [List.filter_eq_nil_iff]
    intro q hq
    simpa using hothers q (hqs q hq)
  unfold Workspace.inScope
  rw [hw, List.filter_append, List.filter_cons_of_pos (by simp),
    hnone before fun q hq => List.mem_append_left _ hq,
    hnone after fun q hq => List.mem_append_right _ hq]
  rfl

/-- If no two projects can get to the same path, a run that flushes nothing to a disk comes
to the same in any order of the projects, and it makes of each project what a run over that
project alone makes of it. -/
theorem independent_projects (m : Migration) (t : Staging) (w w' : Workspace) (ht : t.Reachable)
    (honly : m.StagesOnly t) (hnames : (w.projects.map Project.name).Nodup)
    (hind : m.Independent w.projects) (hperm : w'.projects.Perm w.projects) :
    SameRun (m.run t w') (m.run t w) ∧ ∀ p ∈ w.inScope m.project,
      m.AsAlone t p (m.run t w) ((m.only p.name).run t w) := by
  have hlookup (name : String) : w'.project? name = w.project? name :=
    find?_of_perm hperm hnames name
  have hscope : (w'.inScope m.project).Perm (w.inScope m.project) := hperm.filter _
  have hind' : m.Independent (w.inScope m.project) := hind.sublist List.filter_sublist
  have hnames' := Workspace.nodup_inScope hnames m.project
  have haccount := account_foldl ht.coherent honly w hind' hnames'
  constructor
  · by_cases hthere : ∀ name, m.project = some name → (w.project? name).isSome
    · have haccount' := account_foldl ht.coherent honly w'
        ((hscope.pairwise_iff fun hab y hb ha => hab y ha hb).mpr hind')
        ((hscope.map Project.name).nodup_iff.mpr hnames')
      rw [run_of_isSome hthere, run_of_isSome fun name hname => by
        rw [hlookup]; exact hthere name hname]
      exact haccount.sameRun haccount' hind' hnames' hscope hlookup
    · -- the project that is asked for is not there
      obtain ⟨name, hname, hnone⟩ : ∃ name, m.project = some name ∧ w.project? name = none := by
        simpa using hthere
      rw [run_of_eq_none hname hnone, run_of_eq_none hname ((hlookup name).trans hnone)]
      exact ⟨.error _, hlookup, fun _ => rfl⟩
  · intro p hp
    have hmem := Workspace.mem_of_mem_inScope hp
    have hproject := Workspace.project?_of_mem hnames hmem
    have hthere (n : Migration) (hn : p ∈ w.inScope n.project) :
        ∀ name, n.project = some name → (w.project? name).isSome := by
      intro name hname
      rw [hname] at hn
      obtain rfl : p.name = name := by simpa using (List.mem_filter.mp hn).2
      simp [hproject]
    have hself : w.inScope (m.only p.name).project = [p] := inScope_of_mem hnames hmem
    have halone : m.Account t w [p] ([p].foldl (m.only p.name).step ((m.only p.name).begin t w)) :=
      (account_foldl (m := m.only p.name) ht.coherent honly w (List.pairwise_singleton _ _)
        (List.nodup_singleton _)).of_only
    rw [run_of_isSome (hthere m hp),
      run_of_isSome (m := m.only p.name) (hthere _ (by simp [hself])), hself]
    exact haccount.asAlone halone ht.coherent hind' hnames' hp hproject

/-- A project whose old config is in no known language. -/
def illegible : Project :=
  (Project.ofRoot "a" ⟨"a"⟩).setTarget "build" (retired "v.json")

/-- Of two independent projects one fails and the other one is migrated, in either order. -/
theorem independent_projects_shelf :
    SameRun (retire.run shelf ⟨[illegible, sharing]⟩) (retire.run shelf ⟨[sharing, illegible]⟩) ∧
      retire.AsAlone shelf sharing (retire.run shelf ⟨[sharing, illegible]⟩)
        ((retire.only sharing.name).run shelf ⟨[sharing, illegible]⟩) ∧
      (retire.run shelf ⟨[sharing, illegible]⟩).result.map (fun r => r.projects) =
        .ok [("b", .migrated 1 (some ⟨"w.js"⟩)),
          ("a", .skipped "Language not supported: json")] := by
  have hind : retire.Independent [sharing, illegible] := by
    unfold Independent
    decide +kernel
  obtain ⟨hsame, halone⟩ := independent_projects retire shelf ⟨[sharing, illegible]⟩
    ⟨[illegible, sharing]⟩ reachable_shelf (.inr rfl) (by decide) hind (.swap _ _ _)
  exact ⟨hsame, halone sharing List.mem_cons_self, by decide +kernel⟩

end Retarget.Migration
