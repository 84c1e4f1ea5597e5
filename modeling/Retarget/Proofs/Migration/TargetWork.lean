import Retarget.Proofs.Migration.Footprint
import Retarget.Proofs.OrderedMap.Distinct
import Retarget.Proofs.Target.Reducing

/-!
# Migrating the units of one target

The units of a target are migrated one after the other: the default options, then
every configuration.  `migrateUnits_of_target` says what comes of them together: the
target is left alone because its default options were skipped, or it is reduced as a
whole, with a warning for every notice of `Reduction.reduced`.
-/

namespace Retarget.Migration

variable {m : Migration} {p q : Project} {t u : Staging} {w x : Work} {n : String}
  {target : Target}

/-- A notice as it is told about a target of a project. -/
def told (p : Project) (n : String) : Reduction.Notice → String
  | .dropped message => fillIn message p
  | .kept c path => (Unit_.mk p.name p.root n (some c)).label ++ ": " ++
      Reduction.unmergedOverride c path

/-- The warnings about the notices of a target. -/
def raised (p : Project) (n : String) (notices : List Reduction.Notice) : List Warning :=
  notices.map fun x => ⟨.warn, some p.name, told p n x⟩

/-- Only the name and the root of a project are told. -/
theorem raised_congr (hname : p.name = q.name) (hroot : p.root = q.root) (n : String)
    (notices : List Reduction.Notice) : raised p n notices = raised q n notices := by
  refine List.map_congr_left fun x _ => ?_
  cases x with
  | dropped message => simp [told, fillIn, hname, hroot]
  | kept c path => simp [told, hname, hroot]

theorem raised_append (p : Project) (n : String) (a b : List Reduction.Notice) :
    raised p n (a ++ b) = raised p n a ++ raised p n b :=
  List.map_append

/-- What is told when an old config is read: the paths that could not be moved and the
calls that are missing; nothing if it was read before. -/
def ConfigNotes (m : Migration) (p : Project) (notes : List Warning) : Prop :=
  notes = [] ∨ ∃ t config e unresolved, m.extract t p config = .ok (e, unresolved) ∧
    notes = unresolved.map (fun s => ⟨.warn, some p.name, s⟩) ++
      (m.profile.config.notes e).map fun s => ⟨.info, some p.name, s⟩

/-- Units one after the other. -/
theorem migrateUnits_append (m : Migration) (t : Staging) (w : Work) (us vs : List Unit_) :
    m.migrateUnits t w (us ++ vs) =
      match m.migrateUnits t w us with
      | (u, .error f) => (u, .error f)
      | (u, .ok x) => m.migrateUnits u x vs := by
  induction us generalizing t w with
  | nil => rfl
  | cons b us ih =>
    rw [List.cons_append, migrateUnits, migrateUnits]
    rcases m.migrateUnit t w b with ⟨u, f | x⟩
    · rfl
    · exact ih u x

/-! ## Stripping the parts of a target -/

/-- The work after a part of a target got another value. -/
def Work.give (w : Work) (n : String) (target : Target) (notices : List Reduction.Notice) :
    Work :=
  { w with
    project := w.project.setTarget n target
    warnings := w.warnings ++ raised w.project n notices
    touched := note w.touched n
    migrated := w.migrated + 1 }

theorem note_of_mem {names : List String} (h : n ∈ names) : note names n = names := by
  simp [note, h]

theorem note_of_not_mem {names : List String} (h : n ∉ names) :
    note names n = names ++ [n] := by
  simp [note, h]

theorem stripUnit_base (m : Migration) (w : Work) (b : Unit_) (hb : b.configuration = none)
    (target : Target) :
    m.stripUnit w b target =
      { w.give b.target (m.profile.reduction.stripBase target).1
          (m.profile.reduction.baseNotices target) with
        migratedBases := note w.migratedBases b.target } := by
  simp [stripUnit, releaseVariant, hb, Reduction.stripUnit, Work.warnAll_eq, Unit_.isBase,
    Work.give, raised, Reduction.baseNotices, told]

theorem stripUnit_variant (m : Migration) (w : Work) (n c : String) (target : Target) :
    m.stripUnit w ⟨w.project.name, w.project.root, n, some c⟩ target =
      w.give n (m.profile.reduction.variantReduced target (w.configs.get? n) c)
        (m.profile.reduction.variantNotices target (w.configs.get? n) c) := by
  simp only [stripUnit, releaseVariant, Reduction.stripUnit, Unit_.isBase, Work.give,
    Reduction.variantReduced, Reduction.variantNotices]
  cases (m.profile.reduction.releaseOverride target c (w.configs.get? n)).2 with
  | none => simp [Work.warnAll_eq, raised, told]
  | some path => simp [Work.warnAll_eq, Work.warn, raised, told]

/-! ## All units of a target -/

theorem migrateUnits_variants (t : Staging) (cs : List String)
    (hproject : w.project = q.setTarget n target)
    (hexec : target.executor? = some m.profile.executor) (hskipped : n ∉ w.skippedTargets)
    (htouched : n ∈ w.touched) :
    m.migrateUnits t w (cs.map fun c => ⟨q.name, q.root, n, some c⟩) =
      let x := cs.foldl (m.profile.reduction.noticing (w.configs.get? n)) (target, [])
      (t, .ok { w with
        project := q.setTarget n x.1
        warnings := w.warnings ++ raised q n x.2
        migrated := w.migrated + cs.length }) := by
  induction cs generalizing w target with
  | nil => simp [migrateUnits, raised, ← hproject]
  | cons c cs ih =>
    have hclass : m.classify t ⟨q.name, q.root, n, some c⟩ target = .variant := by
      simp [classify, hexec, Unit_.isBase]
    have hget : OrderedMap.get? (q.setTarget n target).targets n = some target :=
      OrderedMap.get?_insert_self _ _ _
    have hstrip := stripUnit_variant m w n c target
    rw [hproject] at hstrip
    have hgiven : ∀ u notices, (w.give n u notices).project = q.setTarget n u := by
      intro u notices
      simp [Work.give, hproject, Project.setTarget, OrderedMap.insert_insert]
    have hkept : ∀ u notices, (w.give n u notices).touched = w.touched := by
      intro u notices
      simp [Work.give, note_of_mem htouched]
    rw [List.map_cons, migrateUnits, migrateUnit, hproject]
    simp only [hget, hclass, List.contains_eq_mem, hskipped, decide_false, Bool.false_eq_true,
      if_false]
    rw [show (⟨q.name, q.root, n, some c⟩ : Unit_) = ⟨(q.setTarget n target).name,
      (q.setTarget n target).root, n, some c⟩ from rfl, hstrip]
    rw [ih (hgiven _ _) (by rw [Reduction.executor?_variantReduced, hexec]) hskipped
      (by rwa [hkept])]
    have hraised := raised_congr (p := q.setTarget n target) (q := q) rfl rfl n
    rw [List.foldl_cons, Reduction.noticing, Reduction.foldl_noticing _ _ _ cs ([] ++ _)]
    simp [Work.give, note_of_mem htouched, raised_append, hproject, hraised, Nat.add_assoc,
      Nat.add_comm 1]

/-- The work after all units of a target were migrated. -/
def Work.reduce (m : Migration) (w : Work) (n : String) (target : Target) : Work :=
  let x := m.profile.reduction.reduced target
  { w with
    project := w.project.setTarget n x.1
    warnings := w.warnings ++ raised w.project n x.2
    migrated := w.migrated + (1 + target.configurationNames.length)
    migratedBases := w.migratedBases ++ [n]
    touched := w.touched ++ [n] }

/-- What is known about a target before its units are migrated. -/
structure Untouched (m : Migration) (p : Project) (w : Work) (n : String) (target : Target) :
    Prop where
  name : w.project.name = p.name
  root : w.project.root = p.root
  there : OrderedMap.get? w.project.targets n = some target
  bound : target.executor? = some m.profile.executor
  skipped : n ∉ w.skippedTargets
  bases : n ∉ w.migratedBases
  touched : n ∉ w.touched

/-- Once the default options are migrated, so are the configurations. -/
theorem migrateUnits_after_base (h : m.Untouched p w n target)
    (hplace : w.configs.get? n = m.profile.reduction.legacyPlace? target) :
    m.migrateUnits t (m.stripUnit w ⟨p.name, p.root, n, none⟩ target)
        (target.configurationNames.map fun c => ⟨p.name, p.root, n, some c⟩) =
      (t, .ok (Work.reduce m w n target)) := by
  have hvariants := migrateUnits_variants (m := m) (q := w.project) (n := n) t
    target.configurationNames (w := m.stripUnit w ⟨p.name, p.root, n, none⟩ target)
    (by rw [stripUnit_base _ _ _ rfl]; rfl)
    (by rw [Reduction.executor?_stripBase, h.bound])
    (by rw [stripUnit_base _ _ _ rfl]; exact h.skipped)
    (by rw [stripUnit_base _ _ _ rfl]; simp [Work.give, note_of_not_mem h.touched])
  rw [h.name, h.root] at hvariants
  rw [hvariants, stripUnit_base _ _ _ rfl]
  have hreduced : m.profile.reduction.reduced target =
      target.configurationNames.foldl (m.profile.reduction.noticing (w.configs.get? n))
        ((m.profile.reduction.stripBase target).1, m.profile.reduction.baseNotices target) := by
    rw [Reduction.reduced, hplace]
  rw [Reduction.foldl_noticing] at hreduced
  simp [Work.reduce, Work.give, hreduced, raised_append, note_of_not_mem h.touched,
    note_of_not_mem h.bases, Nat.add_assoc]

/-- Configurations of a target that is skipped are left alone. -/
theorem migrateUnits_of_skipped (hget : OrderedMap.get? w.project.targets n = some target)
    (hexec : target.executor? = some m.profile.executor) (hskipped : n ∈ w.skippedTargets)
    (cs : List String) :
    m.migrateUnits t w (cs.map fun c => ⟨p.name, p.root, n, some c⟩) = (t, .ok w) := by
  induction cs with
  | nil => rfl
  | cons c cs ih =>
    have hclass : m.classify t ⟨p.name, p.root, n, some c⟩ target = .variant := by
      simp [classify, hexec, Unit_.isBase]
    rw [List.map_cons, migrateUnits, migrateUnit]
    simp only [hget, hclass, List.contains_eq_mem, hskipped, decide_true, if_true]
    exact ih

theorem extract_of_root (h : p.root = q.root) (t : Staging) (config : Location) :
    m.extract t p config = m.extract t q config := by
  have hrelocate : m.relocate p config = m.relocate q config := by
    funext state callee
    simp only [relocate, h]
  simp only [extract, hrelocate]

/-- Putting a new config in place of an old one adds warnings, and changes nothing that
the other units of the project depend on but the list of configs done. -/
theorem replaceConfig_told {config : Location} (hname : w.project.name = p.name)
    (hroot : w.project.root = p.root) (h : m.replaceConfig t w config = (u, .ok x)) :
    ∃ notes extracted written, m.ConfigNotes p notes ∧
      x = { w with
        warnings := w.warnings ++ notes, extracted := extracted, config := written } := by
  unfold replaceConfig at h
  split at h
  · obtain ⟨-, rfl⟩ := by simpa using h
    exact ⟨[], w.extracted, w.config, .inl rfl, by simp⟩
  · split at h
    · simp at h
    · next e unresolved hextract =>
      dsimp only at h
      split at h
      · simp at h
      · next v s hsyn =>
        obtain ⟨-, rfl⟩ := by simpa using h
        have hnotes : s.warnings = m.profile.config.notes e := by
          unfold PluginConfig.synthesize at hsyn
          dsimp only at hsyn
          split at hsyn
          · simp at hsyn
          · split at hsyn
            · simp at hsyn
            · split at hsyn
              · simp at hsyn
              · split at hsyn
                · simp at hsyn
                · obtain ⟨-, rfl⟩ := by simpa using hsyn
                  rfl
        rw [extract_of_root hroot] at hextract
        refine ⟨_, w.extracted.insert config e, some s.path,
          .inr ⟨t, config, e, unresolved, hextract, rfl⟩, ?_⟩
        simp [Work.warnAll_eq, hname, hnotes]

/-- What can come of the units of a target. -/
inductive TargetOutcome (m : Migration) (p : Project) (t : Staging) (w : Work) (n : String)
    (target : Target) : Staging × Except Failure Work → Prop
  /-- its default options are skipped, and it is left alone -/
  | skipped {reason : String}
      (base : m.classify t ⟨p.name, p.root, n, none⟩ target = .skipped reason) :
      TargetOutcome m p t w n target (t, .ok (skipUnit w ⟨p.name, p.root, n, none⟩ reason))
  /-- its old config cannot be replaced -/
  | failed {u : Staging} {f : Failure} : TargetOutcome m p t w n target (u, .error f)
  /-- it is reduced, perhaps after an old config was replaced -/
  | migrated {u : Staging} {config : Option Location} {notes : List Warning}
      {extracted : OrderedMap Location Extracted} {written : Option Path}
      {configs : OrderedMap String Location}
      (base : m.classify t ⟨p.name, p.root, n, none⟩ target = .migratable config)
      (told : m.ConfigNotes p notes)
      (others : ∀ k, k ≠ n → configs.get? k = w.configs.get? k) :
      TargetOutcome m p t w n target (u, .ok (Work.reduce m { w with
        warnings := w.warnings ++ notes
        extracted := extracted
        config := written
        configs := configs } n target))

/-- The default options of a bound target are skipped, or they can be migrated together
with the old config that they name. -/
theorem classify_base (hexec : target.executor? = some m.profile.executor) (t : Staging) :
    (∃ reason, m.classify t ⟨p.name, p.root, n, none⟩ target = .skipped reason) ∨
      m.classify t ⟨p.name, p.root, n, none⟩ target =
        .migratable (m.profile.reduction.legacyPlace? target) := by
  unfold classify Reduction.legacyPlace? Reduction.legacyConfig? Profile.reduction
  simp only [hexec, ne_eq, not_true_eq_false, if_false, Unit_.isBase, Option.isNone_none,
    Bool.not_true, Bool.false_eq_true]
  split
  · next hkey => simp [hkey]
  · next key hkey =>
    split
    · exact .inl ⟨_, rfl⟩
    · next path hpath =>
      split
      · exact .inl ⟨_, rfl⟩
      · split
        · simp [hkey, hpath]
        · exact .inl ⟨_, rfl⟩

/-- A target whose default options are skipped is left alone. -/
theorem migrateUnits_of_skipped_base (h : m.Untouched p w n target) {reason : String}
    (hclass : m.classify t ⟨p.name, p.root, n, none⟩ target = .skipped reason) :
    m.migrateUnits t w (Workspace.unitsOfTarget p n target) =
      (t, .ok (skipUnit w ⟨p.name, p.root, n, none⟩ reason)) := by
  have hmem : n ∈ (skipUnit w ⟨p.name, p.root, n, none⟩ reason).skippedTargets := by
    simp [skipUnit, Work.warn, note_of_not_mem h.skipped]
  have hrest := migrateUnits_of_skipped (p := p) (t := t)
    (w := skipUnit w ⟨p.name, p.root, n, none⟩ reason) h.there h.bound hmem
    target.configurationNames
  rw [Workspace.unitsOfTarget, migrateUnits, migrateUnit, h.there]
  simp only [hclass, hrest]

/-- A target whose default options can be migrated is reduced, after the old config that
they name, if any, was replaced. -/
theorem migrateUnits_of_migratable (h : m.Untouched p w n target)
    (hconfigs : w.configs.get? n = none) (hclass : m.classify t ⟨p.name, p.root, n, none⟩ target =
      .migratable (m.profile.reduction.legacyPlace? target)) :
    m.migrateUnits t w (Workspace.unitsOfTarget p n target) =
      match m.profile.reduction.legacyPlace? target with
      | none => (t, .ok (Work.reduce m w n target))
      | some config =>
        match m.replaceConfig t w config with
        | (u, .error f) => (u, .error f)
        | (u, .ok x) =>
          (u, .ok (Work.reduce m { x with configs := x.configs.insert n config } n target)) := by
  rw [Workspace.unitsOfTarget, migrateUnits, migrateUnit, h.there]
  cases hplace : m.profile.reduction.legacyPlace? target with
  | none =>
    rw [hplace] at hclass
    have hrest := migrateUnits_after_base (t := t) h (hconfigs.trans hplace.symm)
    simp only [hclass, hrest]
  | some config =>
    rw [hplace] at hclass
    simp only [hclass]
    rcases hreplace : m.replaceConfig t w config with ⟨u, f | x⟩
    · rfl
    · obtain ⟨notes, extracted, written, -, rfl⟩ := replaceConfig_told h.name h.root hreplace
      have hnext : m.Untouched p { w with
          warnings := w.warnings ++ notes
          extracted := extracted
          config := written
          configs := w.configs.insert n config } n target :=
        ⟨h.name, h.root, h.there, h.bound, h.skipped, h.bases, h.touched⟩
      have hrest := migrateUnits_after_base (t := u) hnext
        (by rw [hplace]; exact OrderedMap.get?_insert_self _ _ _)
      simp only [hrest]

/-- The units of a target that is bound to the executor come out in one of these ways. -/
theorem migrateUnits_of_target (h : m.Untouched p w n target)
    (hconfigs : w.configs.get? n = none) (t : Staging) :
    m.TargetOutcome p t w n target
      (m.migrateUnits t w (Workspace.unitsOfTarget p n target)) := by
  rcases classify_base (p := p) (n := n) h.bound t with ⟨reason, hclass⟩ | hclass
  · rw [migrateUnits_of_skipped_base h hclass]
    exact .skipped hclass
  · rw [migrateUnits_of_migratable h hconfigs hclass]
    cases hplace : m.profile.reduction.legacyPlace? target with
    | none =>
      have hmigrated : m.TargetOutcome p t w n target (t, .ok (Work.reduce m { w with
          warnings := w.warnings ++ [] } n target)) :=
        .migrated hclass (.inl rfl) fun _ _ => rfl
      simpa only [List.append_nil] using hmigrated
    | some config =>
      dsimp only
      rcases hreplace : m.replaceConfig t w config with ⟨u, f | x⟩
      · exact .failed
      · obtain ⟨notes, extracted, written, hnotes, rfl⟩ :=
          replaceConfig_told h.name h.root hreplace
        exact .migrated hclass hnotes fun k hk => OrderedMap.get?_insert_of_ne _ hk

end Retarget.Migration
