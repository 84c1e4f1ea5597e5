import Mathlib.Data.List.Nodup
import Retarget.Proofs.Migration.Agreement
import Retarget.Proofs.Migration.Reports
import Retarget.Proofs.Migration.Warnings

/-!
# Effects of projects

`Migration.effect` is what migrating a project adds: operations to the log, warnings and
counts and an outcome to the report, and perhaps a new value to the workspace.  It is read
off the staging at the turn of the project, and only off the paths that the project can
get to.

A run adds up the effects of its projects, one after the other, unless a flush fails.
-/

namespace Retarget.Migration

open Staging (Alike)

/-- What migrating a project adds. -/
structure Effect where
  operations : List Staged
  warnings : List Warning
  migrated : Nat
  skipped : Nat
  /-- what is reported about the project; nothing if it has no units -/
  outcome : Option Retarget.Outcome
  /-- the new value of the project, if it was migrated -/
  project : Option Project

/-- The effect of a project on a staging. -/
def effect (m : Migration) (t : Staging) (p : Project) : Effect :=
  let units := Workspace.unitsOfProject m.profile.executor p
  if units.isEmpty then ⟨[], [], 0, 0, none, none⟩
  else
    match m.prepare t p units with
    | (_, .error f) =>
      ⟨[], [⟨.error, some p.name, f.message⟩], 0, units.countP Unit_.isBase,
        some (.skipped f.message), none⟩
    | (u, .ok w) =>
      if w.migrated = 0 then
        ⟨[], w.warnings, 0, w.skipped, some (.skipped ("; ".intercalate w.reasons)), none⟩
      else
        ⟨u.log.drop t.log.length, w.warnings, w.migrated, w.skipped,
          some (.migrated w.migrated w.config), some w.project⟩

namespace Effect

/-- A report with an effect added. -/
def report (e : Effect) (name : String) (r : Report) : Report :=
  { r with
    migrated := r.migrated + e.migrated
    skipped := r.skipped + e.skipped
    warnings := r.warnings ++ e.warnings
    projects := match e.outcome with
      | none => r.projects
      | some o => OrderedMap.insert r.projects name o }

/-- A workspace with an effect added. -/
def workspace (e : Effect) (w : Workspace) : Workspace :=
  match e.project with
  | none => w
  | some p => w.put p

end Effect

variable {m n : Migration} {p q : Project} {s : State} {t u : Staging} {e : Effect}
  {ps : List Project} {x : Location}

/-- What the effect of a project can be. -/
inductive Effected (m : Migration) (t : Staging) (p : Project) : Effect → Prop
  /-- the project has no units -/
  | unbound (none : (Workspace.unitsOfProject m.profile.executor p).isEmpty = true) :
      Effected m t p ⟨[], [], 0, 0, .none, .none⟩
  /-- the project fails -/
  | failed {u : Staging} {f : Failure}
      (units : (Workspace.unitsOfProject m.profile.executor p).isEmpty = false)
      (run : m.prepare t p (Workspace.unitsOfProject m.profile.executor p) = (u, .error f)) :
      Effected m t p ⟨[], [⟨.error, some p.name, f.message⟩], 0,
        (Workspace.unitsOfProject m.profile.executor p).countP Unit_.isBase,
        some (.skipped f.message), none⟩
  /-- the project has nothing to migrate -/
  | idle {u : Staging} {w : Work}
      (units : (Workspace.unitsOfProject m.profile.executor p).isEmpty = false)
      (run : m.prepare t p (Workspace.unitsOfProject m.profile.executor p) = (u, .ok w))
      (zero : w.migrated = 0) :
      Effected m t p ⟨[], w.warnings, 0, w.skipped,
        some (.skipped ("; ".intercalate w.reasons)), none⟩
  /-- the project is migrated -/
  | migrated {u : Staging} {w : Work}
      (units : (Workspace.unitsOfProject m.profile.executor p).isEmpty = false)
      (run : m.prepare t p (Workspace.unitsOfProject m.profile.executor p) = (u, .ok w))
      (some : w.migrated ≠ 0) (log : u.log = t.log ++ u.log.drop t.log.length) :
      Effected m t p ⟨u.log.drop t.log.length, w.warnings, w.migrated, w.skipped,
        .some (.migrated w.migrated w.config), .some w.project⟩

theorem effected_effect (m : Migration) (t : Staging) (p : Project) :
    m.Effected t p (m.effect t p) := by
  have hgrown := grown_prepare m t p (Workspace.unitsOfProject m.profile.executor p)
  unfold effect
  dsimp only
  split
  · next hnil => exact .unbound hnil
  · next hunits =>
    have hunits : (Workspace.unitsOfProject m.profile.executor p).isEmpty = false := by
      simpa using hunits
    split
    · next hrun => exact .failed hunits hrun
    · next hrun =>
      rw [hrun] at hgrown
      obtain ⟨ops, hops, -⟩ := hgrown.log
      split
      · next hzero => exact .idle hunits hrun hzero
      · next hsome => exact .migrated hunits hrun hsome (by rw [hops, List.drop_left])

/-! ## What an effect depends on -/

/-- An effect depends on the paths that its project can get to. -/
theorem effect_congr (h : Alike (· ∈ m.reach p) t u) : m.effect t p = m.effect u p := by
  have hrun := prepare_congr h (Workspace.unitsOfProject m.profile.executor p)
  unfold effect
  dsimp only
  generalize m.prepare t p (Workspace.unitsOfProject m.profile.executor p) = rt at hrun ⊢
  generalize m.prepare u p (Workspace.unitsOfProject m.profile.executor p) = ru at hrun ⊢
  obtain ⟨t', r⟩ := rt
  obtain ⟨u', r'⟩ := ru
  obtain ⟨-, rfl, ops, hops, hops'⟩ := hrun
  dsimp only at hops hops'
  cases r with
  | error f => rfl
  | ok w => simp only [hops, hops', List.drop_left]

/-- An effect depends on the profile of the migration. -/
theorem effect_of_profile (h : m.profile = n.profile) (t : Staging) (p : Project) :
    m.effect t p = n.effect t p := by
  unfold effect
  simp only [prepare_of_profile h, h]

/-- The operations of an effect are on paths that its project can get to. -/
theorem mem_reach_of_effect (m : Migration) (t : Staging) (p : Project) :
    ∀ op ∈ (m.effect t p).operations, ∀ x ∈ op.paths, x ∈ m.reach p := by
  have hgrown := grown_prepare m t p (Workspace.unitsOfProject m.profile.executor p)
  have heffect := effected_effect m t p
  generalize m.effect t p = e at heffect
  cases heffect with
  | unbound _ => simp
  | failed _ _ => simp
  | idle _ _ _ => simp
  | migrated _ hrun _ _ =>
    obtain ⟨ops, hops, hreach⟩ := hgrown.log
    rw [hrun] at hops
    dsimp only at hops ⊢
    rwa [hops, List.drop_left]

/-- The warnings of an effect are about its project. -/
theorem signed_effect (m : Migration) (t : Staging) (p : Project) :
    ∀ x ∈ (m.effect t p).warnings, x.project = some p.name := by
  have heffect := effected_effect m t p
  generalize m.effect t p = e at heffect
  cases heffect with
  | unbound _ => simp
  | failed _ _ => simp
  | idle _ hrun _ => exact signed_of_prepare hrun
  | migrated _ hrun _ _ => exact signed_of_prepare hrun

/-- The new value of a project has its name. -/
theorem name_effect (h : (m.effect t p).project = some q) : q.name = p.name := by
  have heffect := effected_effect m t p
  generalize m.effect t p = e at h heffect
  cases heffect with
  | unbound _ => cases h
  | failed _ _ => cases h
  | idle _ _ _ => cases h
  | migrated _ hrun hsome _ =>
    obtain rfl := Option.some.inj h
    rcases prepare_ok hrun with ⟨hzero, -⟩ | ⟨-, hname, -⟩
    · exact absurd hzero hsome
    · exact hname

/-! ## What a step adds -/

/-- Whether the flush that ends the work on a project goes through, if there is one. -/
def flushes (m : Migration) (s : State) (p : Project) : Bool :=
  m.dryRun ||
    match m.prepare s.staging p (Workspace.unitsOfProject m.profile.executor p) with
    | (_, .error _) => true
    | (u, .ok w) => w.migrated = 0 || u.flush.2.isOk

/-- What a step does to the staging. -/
inductive Stages (m : Migration) (p : Project) (e : Effect) (t : Staging) : Staging → Prop
  /-- it stages nothing, or takes back what it staged -/
  | nothing {u : Staging} (none : e.operations = []) (agree : u.Agree t)
      (coherent : u.Coherent) : Stages m p e t u
  /-- it stages its operations, and that is all -/
  | staged {u : Staging} (dry : m.dryRun = true) (grown : Staging.Grown (· ∈ m.reach p) t u)
      (log : u.log = t.log ++ e.operations) : Stages m p e t u
  /-- it stages its operations and flushes them -/
  | flushed {u v : Staging} {written : List Location} (wet : m.dryRun = false)
      (grown : Staging.Grown (· ∈ m.reach p) t u) (log : u.log = t.log ++ e.operations)
      (flush : u.flush = (v, .ok written)) : Stages m p e t v

/-- What a step adds, if no flush fails. -/
structure Brings (m : Migration) (p : Project) (e : Effect) (s s' : State) : Prop where
  staging : m.Stages p e s.staging s'.staging
  workspace : s'.workspace = e.workspace s.workspace
  report : ∃ written, s'.report = { e.report p.name s.report with written := written }

theorem brings_step (hs : s.staging.Coherent) (hflushes : m.flushes s p = true) :
    m.Brings p (m.effect s.staging p) s (m.step s p) := by
  have hmigrate := migrateProject_eq m s.staging p (Workspace.unitsOfProject m.profile.executor p)
  have hgrown := grown_prepare m s.staging p (Workspace.unitsOfProject m.profile.executor p)
  have heffect := effected_effect m s.staging p
  generalize m.effect s.staging p = e at heffect
  unfold flushes at hflushes
  cases heffect with
  | unbound hunits =>
    have hstep : m.step s p = s := by simp [step, hunits]
    rw [hstep]
    exact ⟨.nothing rfl (.refl _) hs, rfl, s.report.written, by simp [Effect.report]⟩
  | failed _ hrun =>
    rw [hrun] at hmigrate hgrown
    rw [step_of_error hmigrate]
    exact ⟨.nothing rfl (hgrown.rollback hs) ((hgrown.coherent hs).rollback _), rfl,
      s.report.written, rfl⟩
  | idle hunits hrun hzero =>
    rw [hrun] at hmigrate
    obtain ⟨-, rfl⟩ := (prepare_ok hrun).resolve_right fun h => h.1 hzero
    simp only [hzero, true_or, if_true] at hmigrate
    rw [step_of_ok hunits hmigrate, if_pos hzero]
    exact ⟨.nothing rfl (.refl _) hs, rfl, _, rfl⟩
  | @migrated u w hunits hrun hsome hlog =>
    rw [hrun] at hmigrate hgrown hflushes
    by_cases hdry : m.dryRun = true
    · simp only [hdry, or_true, if_true] at hmigrate
      rw [step_of_ok hunits hmigrate, if_neg hsome]
      exact ⟨.staged hdry hgrown hlog, rfl, _, rfl⟩
    · simp only [hsome, hdry, or_self, if_false, Bool.false_eq_true] at hmigrate
      rcases hflush : u.flush with ⟨v, f | written⟩
      · simp [hdry, hsome, hflush, Except.isOk, Except.toBool] at hflushes
      · rw [hflush] at hmigrate
        rw [step_of_ok hunits hmigrate, if_neg hsome]
        exact ⟨.flushed (by simpa using hdry) hgrown hlog hflush, rfl, _, rfl⟩

/-! ## What a run adds -/

/-- The effects of projects, each on the staging at its turn. -/
def effects (m : Migration) : State → List Project → List (Project × Effect)
  | _, [] => []
  | s, p :: ps => (p, m.effect s.staging p) :: effects m (m.step s p) ps

/-- Whether all flushes of a run go through. -/
def flushesAll (m : Migration) : State → List Project → Bool
  | _, [] => true
  | s, p :: ps => m.flushes s p && flushesAll m (m.step s p) ps

/-- A report with effects added. -/
def tell (es : List (Project × Effect)) (r : Report) : Report :=
  es.foldl (fun r x => x.2.report x.1.name r) r

/-- A workspace with effects added. -/
def place (es : List (Project × Effect)) (w : Workspace) : Workspace :=
  es.foldl (fun w x => x.2.workspace w) w

/-- Which files were written is no part of an effect. -/
theorem tell_written (es : List (Project × Effect)) (r : Report) (written : List Path) :
    tell es { r with written := written } = { tell es r with written := written } := by
  unfold tell
  induction es generalizing r with
  | nil => rfl
  | cons x es ih => exact ih (x.2.report x.1.name r)

/-- A run adds up the effects of its projects. -/
theorem told_foldl (hs : s.staging.Coherent) (hflushes : m.flushesAll s ps = true) :
    (ps.foldl m.step s).workspace = place (m.effects s ps) s.workspace ∧
      ∃ written, (ps.foldl m.step s).report =
        { tell (m.effects s ps) s.report with written := written } := by
  induction ps generalizing s with
  | nil => exact ⟨rfl, s.report.written, rfl⟩
  | cons p ps ih =>
    obtain ⟨hone, hrest⟩ := Bool.and_eq_true_iff.mp hflushes
    obtain ⟨-, hworkspace, written, hreport⟩ := brings_step hs hone
    obtain ⟨hworkspace', written', hreport'⟩ := ih (coherent_step hs p) hrest
    refine ⟨?_, written', ?_⟩
    · rw [List.foldl_cons, hworkspace', hworkspace]
      rfl
    · rw [List.foldl_cons, hreport', hreport, tell_written]
      rfl

/-- The operations of effects, in order. -/
def staged (es : List (Project × Effect)) : List Staged :=
  es.flatMap fun x => x.2.operations

/-! ## Runs that only stage -/

theorem flushes_of_stagesOnly (honly : m.StagesOnly s.staging) (p : Project) :
    m.flushes s p = true := by
  have hgrown := grown_prepare m s.staging p (Workspace.unitsOfProject m.profile.executor p)
  unfold flushes
  rcases honly with hdry | hnone
  · simp [hdry]
  · rcases hrun : m.prepare s.staging p (Workspace.unitsOfProject m.profile.executor p) with
      ⟨u, f | w⟩
    · simp
    · rw [hrun] at hgrown
      simp [Staging.flush_of_disk_eq_none (hgrown.disk.trans hnone), Except.isOk, Except.toBool]

theorem flushesAll_of_stagesOnly (honly : m.StagesOnly s.staging) (ps : List Project) :
    m.flushesAll s ps = true := by
  induction ps generalizing s with
  | nil => rfl
  | cons p ps ih =>
    exact Bool.and_eq_true_iff.mpr ⟨flushes_of_stagesOnly honly p, ih (honly.step p)⟩

/-- A step that only stages extends the staging by the operations of its project. -/
theorem Stages.extends (h : m.Stages p e t u) (ht : t.Coherent) (honly : m.StagesOnly t) :
    Staging.Extends t e.operations u := by
  cases h with
  | nothing none agree coherent =>
    exact ⟨by rw [none, agree.log, List.append_nil], agree.disk, agree.original, coherent⟩
  | staged _ grown log => exact ⟨log, grown.disk, grown.original, grown.coherent ht⟩
  | @flushed v _ _ wet grown log flush =>
    have hnone : v.disk = none := grown.disk.trans (honly.resolve_left (by simp [wet]))
    have hcoherent := (grown.coherent ht).flush
    rw [Staging.flush_of_disk_eq_none hnone] at flush hcoherent
    obtain ⟨rfl, -⟩ := Prod.mk.inj flush
    exact ⟨log, grown.disk, grown.original, hcoherent⟩

theorem extends_step (hs : s.staging.Coherent) (honly : m.StagesOnly s.staging) (p : Project) :
    Staging.Extends s.staging (m.effect s.staging p).operations (m.step s p).staging :=
  (brings_step hs (flushes_of_stagesOnly honly p)).staging.extends hs honly

/-- A run that only stages extends the staging by the operations of its projects. -/
theorem extends_foldl (hs : s.staging.Coherent) (honly : m.StagesOnly s.staging)
    (ps : List Project) :
    Staging.Extends s.staging (staged (m.effects s ps)) (ps.foldl m.step s).staging := by
  induction ps generalizing s with
  | nil => exact .refl hs
  | cons p ps ih =>
    exact (extends_step hs honly p).trans (ih (coherent_step hs p) (honly.step p))

end Retarget.Migration
