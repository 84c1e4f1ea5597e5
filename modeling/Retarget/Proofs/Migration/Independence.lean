import Mathlib.Algebra.BigOperators.Group.List.Basic
import Mathlib.Algebra.GroupWithZero.Nat
import Retarget.Proofs.Migration.Effects
import Retarget.Proofs.OrderedMap.Distinct
import Retarget.Proofs.Workspace.Names

/-!
# Independent projects

Projects that can get to different paths do not interfere with each other, as long as
nothing is flushed to a disk: what each of them adds to a run is its effect on the staging
that the run begins with, whatever was migrated before.

So a run comes to the same in any order of the projects, and it makes of each of them what
a run over that project alone makes of it.
-/

namespace Retarget.Migration

variable {m n : Migration} {p q : Project} {s s' : State} {t u : Staging} {w w' : Workspace}
  {ps qs : List Project} {es : List (Project × Effect)} {x : Location} {name : String}

/-- Projects of which no two can get to the same path. -/
def Independent (m : Migration) (ps : List Project) : Prop :=
  ps.Pairwise fun p q => ∀ x ∈ m.reach p, x ∉ m.reach q

/-! ## The effects of independent projects -/

/-- What independent projects add is their effect on the staging at first. -/
theorem effects_of_independent (hs : s.staging.Coherent) (honly : m.StagesOnly s.staging)
    (h : m.Independent ps) :
    m.effects s ps = ps.map fun p => (p, m.effect s.staging p) := by
  induction ps generalizing s with
  | nil => rfl
  | cons p ps ih =>
    obtain ⟨hp, hps⟩ := List.pairwise_cons.mp h
    have hsame : ∀ q ∈ ps, m.effect (m.step s p).staging q = m.effect s.staging q := by
      intro q hq
      refine (effect_congr ?_).symm
      refine (extends_step hs honly p).alike hs fun op hop x hx hmem => ?_
      exact hp q hq x (mem_reach_of_effect m s.staging p op hop x hx) hmem
    rw [effects, List.map_cons, ih (coherent_step hs p) (honly.step p) hps]
    congr 1
    exact List.map_congr_left fun q hq => by rw [hsame q hq]

/-- The effects of projects on one staging. -/
def effectsOn (m : Migration) (t : Staging) (ps : List Project) : List (Project × Effect) :=
  ps.map fun p => (p, m.effect t p)

theorem names_effectsOn (m : Migration) (t : Staging) (ps : List Project) :
    (m.effectsOn t ps).map (fun x => x.1.name) = ps.map Project.name := by
  simp [effectsOn]

/-! ## Looking up what was added -/

theorem counts_tell (es : List (Project × Effect)) (r : Report) :
    (tell es r).migrated = r.migrated + (es.map fun x => x.2.migrated).sum ∧
      (tell es r).skipped = r.skipped + (es.map fun x => x.2.skipped).sum := by
  unfold tell
  induction es generalizing r with
  | nil => simp
  | cons x es ih =>
    obtain ⟨hmigrated, hskipped⟩ := ih (x.2.report x.1.name r)
    rw [List.foldl_cons, hmigrated, hskipped]
    simp [Effect.report, Nat.add_assoc]

/-- A project is reported by its own effect. -/
theorem status_tell (hnames : (es.map fun x => x.1.name).Nodup) (r : Report) (name : String) :
    (tell es r).projects.get? name =
      ((es.find? fun x => x.1.name = name).bind fun x => x.2.outcome).or
        (r.projects.get? name) := by
  unfold tell
  induction es generalizing r with
  | nil => rfl
  | cons x es ih =>
    obtain ⟨hx, hes⟩ := List.nodup_cons.mp hnames
    rw [List.foldl_cons, ih hes, List.find?_cons]
    by_cases hname : x.1.name = name
    · have hnone : es.find? (fun y => y.1.name = name) = none :=
        find?_of_not_mem (by rwa [← hname])
      rw [hnone]
      cases houtcome : x.2.outcome with
      | none => simp [hname, Effect.report, houtcome]
      | some o => simp [hname, Effect.report, houtcome, OrderedMap.get?_insert_self]
    · simp only [hname, decide_false]
      congr 1
      unfold Effect.report
      cases houtcome : x.2.outcome with
      | none => rfl
      | some o => exact OrderedMap.get?_insert_of_ne _ (Ne.symm hname)

/-- A project is told about by its own effect. -/
theorem warnings_tell (hnames : (es.map fun x => x.1.name).Nodup)
    (hsigned : ∀ x ∈ es, ∀ y ∈ x.2.warnings, y.project = some x.1.name) (r : Report)
    (name : String) :
    ((tell es r).warnings.filter fun y => y.project = some name) =
      (r.warnings.filter fun y => y.project = some name) ++
        ((es.find? fun x => x.1.name = name).map fun x => x.2.warnings).getD [] := by
  unfold tell
  induction es generalizing r with
  | nil => simp
  | cons x es ih =>
    obtain ⟨hx, hes⟩ := List.nodup_cons.mp hnames
    have hone := hsigned x List.mem_cons_self
    rw [List.foldl_cons, ih hes fun y hy => hsigned y (List.mem_cons_of_mem _ hy),
      List.find?_cons]
    by_cases hname : x.1.name = name
    · have hnone : es.find? (fun y => y.1.name = name) = none :=
        find?_of_not_mem (by rwa [← hname])
      have hall : (x.2.warnings.filter fun y => y.project = some name) = x.2.warnings := by
        rw [List.filter_eq_self]
        intro y hy
        simp [hone y hy, hname]
      simp [hnone, hname, Effect.report, List.filter_append, hall]
    · have hnil : (x.2.warnings.filter fun y => y.project = some name) = [] := by
        rw [List.filter_eq_nil_iff]
        intro y hy
        simp [hone y hy, hname]
      simp [hname, Effect.report, List.filter_append, hnil]

/-- A project gets the value of its own effect. -/
theorem project?_place (hnames : (es.map fun x => x.1.name).Nodup)
    (hnamed : ∀ x ∈ es, ∀ q, x.2.project = some q → q.name = x.1.name) (w : Workspace)
    (name : String) :
    (place es w).project? name =
      ((es.find? fun x => x.1.name = name).bind fun x => x.2.project).or (w.project? name) := by
  unfold place
  induction es generalizing w with
  | nil => rfl
  | cons x es ih =>
    obtain ⟨hx, hes⟩ := List.nodup_cons.mp hnames
    have hone := hnamed x List.mem_cons_self
    rw [List.foldl_cons, ih hes fun y hy => hnamed y (List.mem_cons_of_mem _ hy),
      List.find?_cons]
    unfold Effect.workspace
    by_cases hname : x.1.name = name
    · have hnone : es.find? (fun y => y.1.name = name) = none :=
        find?_of_not_mem (by rwa [← hname])
      cases hproject : x.2.project with
      | none => simp [hname, hnone, hproject]
      | some q =>
        obtain rfl : q.name = name := (hone q hproject).trans hname
        simp [hname, hnone, hproject, Workspace.project?_put_self]
    · cases hproject : x.2.project with
      | none => simp [hname]
      | some q =>
        have hq : q.name ≠ name := by rwa [hone q hproject]
        simp [hname, Workspace.project?_put hq]

/-! ## What paths show -/

theorem staged_effectsOn_append (m : Migration) (t : Staging) (ps qs : List Project) :
    staged (m.effectsOn t (ps ++ qs)) = staged (m.effectsOn t ps) ++ staged (m.effectsOn t qs) := by
  simp [staged, effectsOn]

/-- Operations of projects are on paths that one of them can get to. -/
theorem not_mem_paths_of_staged (h : ∀ p ∈ ps, x ∉ m.reach p) :
    ∀ op ∈ staged (m.effectsOn t ps), x ∉ op.paths := by
  intro op hop hx
  obtain ⟨y, hy, hop⟩ := List.mem_flatMap.mp hop
  obtain ⟨p, hp, rfl⟩ := List.mem_map.mp hy
  exact h p hp (mem_reach_of_effect m t p op hop x hx)

/-- Independent projects leave a path as the one project leaves it that can get there. -/
theorem get?_staged_of_mem (h : m.Independent ps) (hp : p ∈ ps) (hx : x ∈ m.reach p) :
    OrderedMap.get? (Staged.replay (staged (m.effectsOn t ps))) x =
      OrderedMap.get? (Staged.replay (m.effect t p).operations) x := by
  obtain ⟨before, after, rfl⟩ := List.append_of_mem hp
  obtain ⟨-, hafter, hbefore⟩ := List.pairwise_append.mp h
  have hone : staged (m.effectsOn t (p :: after)) =
      (m.effect t p).operations ++ staged (m.effectsOn t after) := rfl
  rw [staged_effectsOn_append, hone, ← List.append_assoc,
    Staged.get?_replay_append_of_not_mem _
      (not_mem_paths_of_staged fun q hq => List.rel_of_pairwise_cons hafter hq x hx),
    Staged.replay_append, Staged.get?_foldl_apply]
  have hnone : OrderedMap.get? (Staged.replay (staged (m.effectsOn t before))) x = none :=
    Staged.get?_foldl_apply_of_not_mem []
      (not_mem_paths_of_staged fun q hq hmem => hbefore q hq p List.mem_cons_self x hmem hx)
  rw [hnone, Option.or_none]

theorem get?_staged_of_not_mem (h : ∀ p ∈ ps, x ∉ m.reach p) :
    OrderedMap.get? (Staged.replay (staged (m.effectsOn t ps))) x = none :=
  Staged.get?_foldl_apply_of_not_mem [] (not_mem_paths_of_staged h)

/-- The order of independent projects does not matter for what they leave. -/
theorem get?_staged_of_perm (h : m.Independent ps) (hperm : qs.Perm ps) (x : Location) :
    OrderedMap.get? (Staged.replay (staged (m.effectsOn t qs))) x =
      OrderedMap.get? (Staged.replay (staged (m.effectsOn t ps))) x := by
  have hqs : m.Independent qs := (hperm.pairwise_iff fun hab y hb ha => hab y ha hb).mpr h
  by_cases hx : ∃ p ∈ ps, x ∈ m.reach p
  · obtain ⟨p, hp, hx⟩ := hx
    rw [get?_staged_of_mem h hp hx, get?_staged_of_mem hqs (hperm.mem_iff.mpr hp) hx]
  · have hps : ∀ p ∈ ps, x ∉ m.reach p := fun p hp hmem => hx ⟨p, hp, hmem⟩
    rw [get?_staged_of_not_mem hps,
      get?_staged_of_not_mem fun q hq => hps q (hperm.mem_iff.mp hq)]

end Retarget.Migration
