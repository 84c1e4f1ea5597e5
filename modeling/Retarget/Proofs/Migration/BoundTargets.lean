import Mathlib.Algebra.GroupWithZero.Nat
import Mathlib.Algebra.Order.BigOperators.Group.List
import Mathlib.Algebra.Order.Group.Nat
import Mathlib.Data.List.Forall2
import Retarget.Proofs.Migration.TargetWork

/-!
# Migrating the targets of a project

The units of a project are those of its bound targets, target after target.
`Handled` is what holds once some of the targets were gone through: those whose default
options could be migrated are reduced, the others are what they were, and units and
warnings are accounted for target by target.

`settle_targets` then says what tidying makes of the reduced targets: what
`Reduction.transform` leaves of them without the executor, or nothing.
-/

namespace Retarget.Migration

variable {m : Migration} {p : Project} {t u : Staging} {w x : Work}
  {done rest : List (String × Target)} {names : List String}

/-- Whether default options can be migrated. -/
def Class.isMigratable : Class → Bool
  | .migratable _ => true
  | _ => false

/-- The targets of a project that are bound to the executor. -/
def bound (m : Migration) (p : Project) : List (String × Target) :=
  p.targets.filter fun x => x.2.executor? = some m.profile.executor

/-- The targets among some bound ones whose default options can be migrated when their
turn comes. -/
def takenFrom (m : Migration) (p : Project) : Staging → Work → List (String × Target) →
    List String
  | _, _, [] => []
  | t, w, x :: rest =>
    (if (m.classify t ⟨p.name, p.root, x.1, none⟩ x.2).isMigratable then [x.1] else []) ++
      match m.migrateUnits t w (Workspace.unitsOfTarget p x.1 x.2) with
      | (_, .error _) => []
      | (u, .ok w) => takenFrom m p u w rest

/-- The targets of a project whose default options can be migrated when their turn
comes. -/
def taken (m : Migration) (t : Staging) (p : Project) : List String :=
  m.takenFrom p t (.start p) (m.bound p)

/-- The number of units of a target. -/
def unitCount (x : String × Target) : Nat :=
  1 + x.2.configurationNames.length

/-- A target as it is before the end of the work on its project. -/
def halfDone (m : Migration) (names : List String) (x : String × Target) : Target :=
  if x.1 ∈ names then (m.profile.reduction.reduced x.2).1 else x.2

/-- The warnings that come of one bound target: what is told about its old config and
its notices, or that it is skipped. -/
inductive TargetWarnings (m : Migration) (p : Project) (names : List String)
    (x : String × Target) : List Warning → Prop
  | migrated {notes : List Warning} (mem : x.1 ∈ names) (config : m.ConfigNotes p notes) :
      TargetWarnings m p names x (notes ++ raised p x.1 (m.profile.reduction.reduced x.2).2)
  | skipped (reason : String) (not_mem : x.1 ∉ names) :
      TargetWarnings m p names x [⟨.warn, some p.name,
        "Skipped " ++ (Unit_.mk p.name p.root x.1 none).label ++ ": " ++ reason⟩]

/-- What holds once some bound targets were gone through. -/
structure Handled (m : Migration) (p : Project) (done : List (String × Target))
    (names : List String) (w : Work) : Prop where
  project : w.project = { p with targets := p.targets.map fun x => (x.1, m.halfDone names x) }
  migrated : w.migrated = ((done.filter fun x => x.1 ∈ names).map unitCount).sum
  skipped : w.skipped = done.countP fun x => x.1 ∉ names
  bases : w.migratedBases = names
  touched : w.touched = names
  nodup : names.Nodup
  among : ∀ n ∈ names, n ∈ done.map Prod.fst
  skippedTargets : ∀ n ∈ w.skippedTargets, n ∈ done.map Prod.fst
  configs : ∀ n, n ∉ done.map Prod.fst → w.configs.get? n = none
  warnings : ∃ told, List.Forall₂ (m.TargetWarnings p names) done told ∧
    w.warnings = told.flatten

theorem handled_start (m : Migration) (p : Project) : m.Handled p [] [] (.start p) where
  project := by simp [Work.start, halfDone]
  migrated := rfl
  skipped := rfl
  bases := rfl
  touched := rfl
  nodup := .nil
  among := by simp
  skippedTargets := by simp [Work.start]
  configs := fun _ _ => rfl
  warnings := ⟨[], .nil, rfl⟩

/-- A target that was not gone through is what it was. -/
theorem Handled.untouched (h : m.Handled p done names w) (hkeys : (OrderedMap.keys p.targets).Nodup)
    {x : String × Target} (hx : x ∈ m.bound p) (hnew : x.1 ∉ done.map Prod.fst) :
    m.Untouched p w x.1 x.2 := by
  obtain ⟨hmem, hexec⟩ := List.mem_filter.mp hx
  have htaken : x.1 ∉ names := fun hin => hnew (h.among _ hin)
  refine ⟨by rw [h.project], by rw [h.project], ?_, by simpa using hexec,
    fun hin => hnew (h.skippedTargets _ hin), by rwa [h.bases], by rwa [h.touched]⟩
  have hentry : (x.1, x.2) ∈ p.targets.map fun y => (y.1, m.halfDone names y) :=
    List.mem_map.mpr ⟨x, hmem, by simp [halfDone, htaken]⟩
  rw [h.project]
  refine OrderedMap.get?_of_mem ?_ hentry
  rwa [OrderedMap.keys_map]

/-- Warnings of targets that were gone through do not depend on later targets. -/
theorem forall₂_targetWarnings_append {told : List (List Warning)} {n : String}
    (hnew : n ∉ done.map Prod.fst) (h : List.Forall₂ (m.TargetWarnings p names) done told) :
    List.Forall₂ (m.TargetWarnings p (names ++ [n])) done told := by
  have hother : ∀ x ∈ done, ∀ ws, m.TargetWarnings p names x ws →
      m.TargetWarnings p (names ++ [n]) x ws := by
    intro x hx ws hws
    have hne : x.1 ≠ n := fun e => hnew (e ▸ List.mem_map_of_mem hx)
    cases hws with
    | migrated mem config => exact .migrated (List.mem_append_left _ mem) config
    | skipped reason not_mem => exact .skipped reason (by simp [not_mem, hne])
  clear hnew
  induction h with
  | nil => exact .nil
  | cons hx _ ih =>
    exact .cons (hother _ List.mem_cons_self _ hx)
      (ih fun y hy => hother y (List.mem_cons_of_mem _ hy))

theorem Handled.skip (h : m.Handled p done names w) {x : String × Target}
    (hnew : x.1 ∉ done.map Prod.fst) (reason : String) :
    m.Handled p (done ++ [x]) names (skipUnit w ⟨p.name, p.root, x.1, none⟩ reason) := by
  have htaken : x.1 ∉ names := fun hin => hnew (h.among _ hin)
  obtain ⟨told, htold, hwarnings⟩ := h.warnings
  refine ⟨h.project, ?_, ?_, h.bases, h.touched, h.nodup, ?_, ?_, ?_, ?_⟩
  · rw [List.filter_append, List.filter_cons_of_neg (by simpa using htaken)]
    simpa [skipUnit, Work.warn] using h.migrated
  · simp [skipUnit, Work.warn, h.skipped, List.countP_append, htaken]
  · intro n hn
    simp [h.among n hn]
  · intro n hn
    have hnote : n ∈ w.skippedTargets ∨ n = x.1 := by
      have hn : n ∈ note w.skippedTargets x.1 := hn
      unfold note at hn
      split at hn
      · exact .inl hn
      · simpa using hn
    rcases hnote with hn | rfl
    · simp [h.skippedTargets n hn]
    · simp
  · intro n hn
    refine h.configs n fun hin => hn ?_
    simp [hin]
  · refine ⟨told ++ [_], List.rel_append htold (.cons (.skipped reason htaken) .nil), ?_⟩
    have hname : w.project.name = p.name := by rw [h.project]
    simp [skipUnit, Work.warn, hwarnings, hname]

/-- Putting the reduced target in its place takes one more name over. -/
theorem insert_reduced (hkeys : (OrderedMap.keys p.targets).Nodup) {x : String × Target}
    (hmem : x ∈ p.targets) :
    OrderedMap.insert (p.targets.map fun y => (y.1, m.halfDone names y)) x.1
        (m.profile.reduction.reduced x.2).1 =
      p.targets.map fun y => (y.1, m.halfDone (names ++ [x.1]) y) := by
  have hkey : x.1 ∈ OrderedMap.keys (p.targets.map fun y => (y.1, m.halfDone names y)) := by
    rw [OrderedMap.keys_map]
    exact List.mem_map_of_mem hmem
  rw [OrderedMap.insert_eq_map (by rwa [OrderedMap.keys_map]) hkey, List.map_map]
  refine List.map_congr_left fun y hy => ?_
  by_cases hne : y.1 = x.1
  · -- there is one target of that name
    have hyx : y.2 = x.2 := by
      have hy' := OrderedMap.get?_of_mem (k := y.1) (v := y.2) hkeys hy
      have hx' := OrderedMap.get?_of_mem (k := x.1) (v := x.2) hkeys hmem
      rw [hne] at hy'
      exact Option.some.inj (hy'.symm.trans hx')
    simp [halfDone, hne, hyx]
  · simp [halfDone, hne]

/-- A target whose default options could be migrated is reduced. -/
theorem Handled.reduce (h : m.Handled p done names w) (hkeys : (OrderedMap.keys p.targets).Nodup)
    {x : String × Target} (hx : x ∈ m.bound p) (hnew : x.1 ∉ done.map Prod.fst)
    {notes : List Warning} (hnotes : m.ConfigNotes p notes)
    {extracted : OrderedMap Location Extracted} {written : Option Path}
    {configs : OrderedMap String Location}
    (hconfigs : ∀ k, k ≠ x.1 → configs.get? k = w.configs.get? k) :
    m.Handled p (done ++ [x]) (names ++ [x.1]) (Work.reduce m { w with
      warnings := w.warnings ++ notes
      extracted := extracted
      config := written
      configs := configs } x.1 x.2) := by
  have htaken : x.1 ∉ names := fun hin => hnew (h.among _ hin)
  have hmem := (List.mem_filter.mp hx).1
  obtain ⟨told, htold, hwarnings⟩ := h.warnings
  have hsame : ∀ y ∈ done, (y.1 ∈ names ++ [x.1] ↔ y.1 ∈ names) := by
    intro y hy
    have hne : y.1 ≠ x.1 := fun e => hnew (e ▸ List.mem_map_of_mem hy)
    simp [hne]
  refine ⟨?_, ?_, ?_, ?_, ?_, ?_, ?_, ?_, ?_, ?_⟩
  · simp [Work.reduce, h.project, Project.setTarget, insert_reduced hkeys hmem]
  · have hfilter : (done.filter fun y => y.1 ∈ names ++ [x.1]) =
        done.filter fun y => y.1 ∈ names :=
      List.filter_congr fun y hy => by simp only [hsame y hy]
    rw [List.filter_append, hfilter]
    simp [Work.reduce, h.migrated, unitCount]
  · have hcount : (done.countP fun y => y.1 ∉ names ++ [x.1]) =
        done.countP fun y => y.1 ∉ names :=
      List.countP_congr fun y hy => by simp only [hsame y hy]
    rw [List.countP_append, hcount]
    simp [Work.reduce, h.skipped]
  · simp [Work.reduce, h.bases]
  · simp [Work.reduce, h.touched]
  · simpa [List.nodup_append] using ⟨h.nodup, fun n hn => by rintro rfl; exact htaken hn⟩
  · intro n hn
    rcases List.mem_append.mp hn with hn | hn
    · simp [h.among n hn]
    · simp [List.mem_singleton.mp hn]
  · intro n hn
    have hn : n ∈ w.skippedTargets := hn
    simp [h.skippedTargets n hn]
  · intro n hn
    have hn : n ∉ done.map Prod.fst ∧ n ≠ x.1 := by simpa using hn
    exact (hconfigs n hn.2).trans (h.configs n hn.1)
  · refine ⟨told ++ [_], List.rel_append (forall₂_targetWarnings_append hnew htold)
      (.cons (.migrated (by simp) hnotes) .nil), ?_⟩
    have hraised := raised_congr (p := w.project) (q := p) (by rw [h.project])
      (by rw [h.project]) x.1
    simp [Work.reduce, hwarnings, hraised]

/-- Going through bound targets handles them. -/
theorem Handled.migrateUnits (hkeys : (OrderedMap.keys p.targets).Nodup)
    (h : m.Handled p done names w) (hbound : ∀ x ∈ rest, x ∈ m.bound p)
    (hnames : ((done ++ rest).map Prod.fst).Nodup)
    (hrun : m.migrateUnits t w (rest.flatMap fun x => Workspace.unitsOfTarget p x.1 x.2) =
      (u, .ok x)) :
    m.Handled p (done ++ rest) (names ++ m.takenFrom p t w rest) x := by
  induction rest generalizing t w done names with
  | nil =>
    obtain ⟨rfl, rfl⟩ := by simpa [Migration.migrateUnits] using hrun
    simpa [takenFrom] using h
  | cons y rest ih =>
    have hnew : y.1 ∉ done.map Prod.fst := by
      rw [List.map_append] at hnames
      intro hin
      exact (List.nodup_append.mp hnames).2.2 _ hin _ (by simp) rfl
    have hy := hbound y List.mem_cons_self
    have hout := migrateUnits_of_target (h.untouched hkeys hy hnew) (h.configs _ hnew) t
    have hrest : ∀ z ∈ rest, z ∈ m.bound p := fun z hz => hbound z (List.mem_cons_of_mem _ hz)
    have hnames' : ((done ++ [y] ++ rest).map Prod.fst).Nodup := by
      simpa using hnames
    rw [List.flatMap_cons, migrateUnits_append] at hrun
    rw [takenFrom]
    generalize m.migrateUnits t w (Workspace.unitsOfTarget p y.1 y.2) = result at hout hrun
    cases hout with
    | failed => simp at hrun
    | skipped base =>
      have hnext := ih (h.skip hnew _) hrest hnames' hrun
      simpa [base, Class.isMigratable] using hnext
    | migrated base told others =>
      have hnext := ih (h.reduce hkeys hy hnew told others) hrest hnames' hrun
      simpa [base, Class.isMigratable] using hnext

/-! ## Tidying -/

/-- A target tidied and without its executor; nothing if no field is left. -/
def tidied (x : String × Target) : Option (String × Target) :=
  let left := (Reduction.tidy x.2).removeExecutor
  if left.isEmpty then none else some (x.1, left)

/-- What is left of a target whose units are migrated: the transformed target without
its executor, or nothing if no field is left. -/
def remains (m : Migration) (x : String × Target) : Option (String × Target) :=
  let left := (m.profile.reduction.transform x.2).1.removeExecutor
  if left.isEmpty then none else some (x.1, left)

theorem fst_of_tidied {x y : String × Target} (h : tidied x = some y) : y.1 = x.1 := by
  unfold tidied at h
  dsimp only at h
  split at h
  · cases h
  · rw [← Option.some.inj h]

theorem targets_settleTarget {bases : List String} {n : String}
    (hkeys : (OrderedMap.keys p.targets).Nodup) (hbase : n ∈ bases) :
    (settleTarget bases p n).targets =
      p.targets.filterMap fun x => if x.1 = n then tidied x else some x := by
  unfold settleTarget
  cases hget : OrderedMap.get? p.targets n with
  | none =>
    have hother : ∀ x ∈ p.targets, (if x.1 = n then tidied x else some x) = some x := by
      intro x hx
      have hne : x.1 ≠ n := by
        rintro rfl
        rw [OrderedMap.get?_of_mem (k := x.1) (v := x.2) hkeys hx] at hget
        cases hget
      simp [hne]
    rw [List.filterMap_congr hother, List.filterMap_some]
  | some target =>
    have hone : ∀ x ∈ p.targets, x.1 = n → x.2 = target := by
      rintro x hx rfl
      rw [OrderedMap.get?_of_mem (k := x.1) (v := x.2) hkeys hx] at hget
      exact Option.some.inj hget
    have hkey : n ∈ OrderedMap.keys p.targets := List.mem_map_of_mem (OrderedMap.mem_of_get? hget)
    simp only [List.contains_eq_mem, hbase, decide_true, if_true]
    split
    · next hempty =>
      simp only [Project.removeTarget, OrderedMap.remove]
      rw [← List.filterMap_eq_filter]
      refine List.filterMap_congr fun x hx => ?_
      by_cases hx' : x.1 = n
      · simp [hx', tidied, hone x hx hx', hempty]
      · simp [hx']
    · next hleft =>
      simp only [Project.setTarget]
      rw [OrderedMap.insert_eq_map hkeys hkey, ← List.filterMap_eq_map]
      refine List.filterMap_congr fun x hx => ?_
      by_cases hx' : x.1 = n
      · simp [hx', tidied, hone x hx hx', hleft]
      · simp [hx']

/-- Tidying targets of different names tidies each of them. -/
theorem targets_foldl_settleTarget {bases ns : List String}
    (hkeys : (OrderedMap.keys p.targets).Nodup) (hns : ns.Nodup) (hbases : ∀ n ∈ ns, n ∈ bases) :
    (ns.foldl (settleTarget bases) p).targets =
      p.targets.filterMap fun x => if x.1 ∈ ns then tidied x else some x := by
  induction ns generalizing p with
  | nil => simp
  | cons n ns ih =>
    obtain ⟨hn, hns⟩ := List.nodup_cons.mp hns
    have hone := targets_settleTarget hkeys (hbases n List.mem_cons_self)
    have hkeys' : (OrderedMap.keys (settleTarget bases p n).targets).Nodup := by
      rw [hone]
      refine hkeys.sublist (OrderedMap.keys_filterMap_sublist _ fun x y hy => ?_)
      split at hy
      · exact fst_of_tidied hy
      · rw [Option.some.inj hy]
    rw [List.foldl_cons, ih hkeys' hns fun k hk => hbases k (List.mem_cons_of_mem _ hk), hone,
      List.filterMap_filterMap]
    refine List.filterMap_congr fun x _ => ?_
    by_cases hx : x.1 = n
    · -- the target was tidied just now, and is not tidied again
      cases htidied : tidied x with
      | none => simp [hx]
      | some y =>
        have hy : y.1 = n := (fst_of_tidied htidied).trans hx
        simp [hx, hy, hn]
    · simp [hx]

/-- Tidying changes nothing but the targets of a project. -/
theorem foldl_settleTarget_eq (bases ns : List String) (p : Project) :
    ns.foldl (settleTarget bases) p =
      { p with targets := (ns.foldl (settleTarget bases) p).targets } := by
  have single (p : Project) (n : String) :
      settleTarget bases p n = { p with targets := (settleTarget bases p n).targets } := by
    unfold settleTarget
    split
    · rfl
    · dsimp only
      split
      · split
        · rfl
        · rfl
      · rfl
  induction ns generalizing p with
  | nil => rfl
  | cons n ns ih =>
    rw [List.foldl_cons, ih, single]

/-- What the end of the work makes of the targets of a project. -/
theorem Handled.settle (h : m.Handled p done names w)
    (hkeys : (OrderedMap.keys p.targets).Nodup) :
    settle w = { p with
      targets := p.targets.filterMap fun x => if x.1 ∈ names then m.remains x else some x } := by
  have hkeys' : (OrderedMap.keys w.project.targets).Nodup := by
    rw [h.project]
    rwa [OrderedMap.keys_map]
  have htargets : (names.foldl (settleTarget names) w.project).targets =
      p.targets.filterMap fun x => if x.1 ∈ names then m.remains x else some x := by
    rw [targets_foldl_settleTarget hkeys' h.nodup fun _ hn => hn, h.project, List.filterMap_map]
    refine List.filterMap_congr fun x _ => ?_
    by_cases hx : x.1 ∈ names
    · simp [hx, halfDone, tidied, remains, Reduction.transform_eq]
    · simp [hx, halfDone]
  rw [Migration.settle, h.touched, h.bases, foldl_settleTarget_eq, htargets, h.project]

/-! ## Whole projects -/

/-- A project some targets of which were migrated. -/
def reworked (m : Migration) (names : List String) (p : Project) : Project :=
  { p with targets := p.targets.filterMap fun x => if x.1 ∈ names then m.remains x else some x }

/-- The number of units of the targets that are migrated. -/
def migratedUnits (m : Migration) (names : List String) (p : Project) : Nat :=
  (((m.bound p).filter fun x => x.1 ∈ names).map unitCount).sum

/-- The number of bound targets that are not migrated. -/
def keptBases (m : Migration) (names : List String) (p : Project) : Nat :=
  (m.bound p).countP fun x => x.1 ∉ names

/-- The warnings of a project, target by target. -/
def ProjectWarnings (m : Migration) (names : List String) (p : Project)
    (warnings : List Warning) : Prop :=
  ∃ told, List.Forall₂ (m.TargetWarnings p names) (m.bound p) told ∧ warnings = told.flatten

/-- What a project that did not fail comes to, by the targets that are migrated. -/
structure Accounted (m : Migration) (p : Project) (names : List String) (w : Work) : Prop where
  among : ∀ n ∈ names, n ∈ (m.bound p).map Prod.fst
  migrated : w.migrated = m.migratedUnits names p
  skipped : w.skipped = m.keptBases names p
  warnings : m.ProjectWarnings names p w.warnings
  project : w.migrated ≠ 0 → w.project = m.reworked names p

theorem accounted_migrateProject {written : List Location}
    (hkeys : (OrderedMap.keys p.targets).Nodup)
    (h : m.migrateProject t p (Workspace.unitsOfProject m.profile.executor p) =
      (u, .ok (w, written))) :
    m.Accounted p (m.taken t p) w := by
  unfold migrateProject at h
  split at h
  · simp at h
  · next v x hunits =>
    have hnames : (([] ++ m.bound p).map Prod.fst).Nodup :=
      hkeys.sublist (List.filter_sublist.map _)
    have hhandled : m.Handled p (m.bound p) (m.taken t p) x :=
      (handled_start m p).migrateUnits hkeys (fun _ hx => hx) hnames hunits
    split at h
    · next hzero =>
      obtain ⟨-, rfl, -⟩ := by simpa using h
      exact ⟨hhandled.among, hhandled.migrated, hhandled.skipped, hhandled.warnings,
        fun hne => absurd hzero hne⟩
    · dsimp only at h
      split at h
      · simp at h
      · obtain ⟨-, rfl, -⟩ := by simpa using h
        exact ⟨hhandled.among, hhandled.migrated, hhandled.skipped, hhandled.warnings,
          fun _ => hhandled.settle hkeys⟩

/-- Units are migrated where targets are. -/
theorem migratedUnits_eq_zero_iff (h : ∀ n ∈ names, n ∈ (m.bound p).map Prod.fst) :
    m.migratedUnits names p = 0 ↔ names = [] := by
  unfold migratedUnits
  constructor
  · intro hsum
    cases hnames : names with
    | nil => rfl
    | cons n ns =>
      obtain ⟨x, hx, rfl⟩ := List.mem_map.mp (h n (by simp [hnames]))
      have hcount : unitCount x ∈ ((m.bound p).filter fun x => x.1 ∈ names).map unitCount :=
        List.mem_map_of_mem (List.mem_filter.mpr ⟨hx, by simp [hnames]⟩)
      have hzero : unitCount x = 0 := List.sum_eq_zero_iff.mp hsum _ hcount
      simp [unitCount] at hzero
  · rintro rfl
    simp

theorem reworked_nil (p : Project) : m.reworked [] p = p := by
  simp [reworked]

end Retarget.Migration
