import Retarget.Proofs.Migration.Outcome

/-!
# Whom warnings are about

All warnings that the work on a project gives are signed with the name of the
project, so those of two projects never get mixed up in a report.
-/

namespace Retarget.Migration

variable {m : Migration} {p : Project} {t u : Staging} {w x : Work}

/-- All warnings of the work are about its project. -/
def Signed (w : Work) : Prop :=
  ∀ x ∈ w.warnings, x.project = some w.project.name

theorem Signed.warnAll (hw : Signed w) (level : Level) (messages : List String) :
    Signed (w.warnAll level messages) := by
  intro x hx
  rw [Work.warnAll_eq] at hx ⊢
  rcases List.mem_append.mp hx with hx | hx
  · exact hw x hx
  · obtain ⟨s, -, rfl⟩ := List.mem_map.mp hx
    rfl

theorem Signed.warn (hw : Signed w) (level : Level) (message : String) :
    Signed (w.warn level message) :=
  hw.warnAll level [message]

theorem Signed.stripUnit (hw : Signed w) (b : Unit_) (target : Target) :
    Signed (m.stripUnit w b target) := by
  have hreleased : Signed (m.releaseVariant w b target).2 := by
    unfold releaseVariant
    split
    · exact hw
    · dsimp only
      split
      · exact hw
      · exact hw.warn _ _
  exact hreleased.warnAll _ _

theorem Signed.replaceConfig (hw : Signed w) {config : Location}
    (h : m.replaceConfig t w config = (u, .ok x)) : Signed x := by
  unfold Migration.replaceConfig at h
  split at h
  · obtain ⟨-, rfl⟩ := by simpa using h
    exact hw
  · split at h
    · simp at h
    · next e messages _ =>
      dsimp only at h
      split at h
      · simp at h
      · obtain ⟨-, rfl⟩ := by simpa using h
        exact Signed.warnAll (w := { w.warnAll .warn messages with
          extracted := w.extracted.insert config e }) (hw.warnAll _ _) _ _

theorem Signed.migrateUnit (hw : Signed w) {b : Unit_}
    (h : m.migrateUnit t w b = (u, .ok x)) : Signed x := by
  unfold Migration.migrateUnit at h
  split at h
  · obtain ⟨-, rfl⟩ := by simpa using h
    exact hw
  · split at h
    · obtain ⟨-, rfl⟩ := by simpa using h
      exact hw
    · obtain ⟨-, rfl⟩ := by simpa using h
      exact hw.warn _ _
    · split at h
      · obtain ⟨-, rfl⟩ := by simpa using h
        exact hw
      · obtain ⟨-, rfl⟩ := by simpa using h
        exact hw.stripUnit _ _
    · obtain ⟨-, rfl⟩ := by simpa using h
      exact hw.stripUnit _ _
    · next config _ =>
      split at h
      · simp at h
      · next w' hreplace =>
        obtain ⟨-, rfl⟩ := by simpa using h
        have hw' : Signed w' := hw.replaceConfig hreplace
        exact Signed.stripUnit (w := { w' with configs := w'.configs.insert b.target config })
          hw' _ _

/-- All warnings of a prepared project are about it. -/
theorem signed_of_prepare {us : List Unit_} (h : m.prepare t p us = (u, .ok w)) :
    ∀ x ∈ w.warnings, x.project = some p.name := by
  unfold prepare at h
  split at h
  · simp at h
  · next v w' hunits =>
    have hsigned : Signed w' ∧ w'.project.name = p.name := by
      refine ⟨migrateUnits_induction (P := fun _ w => Signed w) ?_ ?_ hunits,
        ((tracks_start m p).migrateUnits hunits).name⟩
      · intro _ _ _ _ _ hw hb
        exact hw.migrateUnit hb
      · simp [Signed, Work.start]
    obtain ⟨hsigned, hname⟩ := hsigned
    rw [Signed, hname] at hsigned
    split at h
    · obtain ⟨-, rfl⟩ := by simpa using h
      exact hsigned
    · split at h
      · simp at h
      · obtain ⟨-, rfl⟩ := by simpa using h
        exact hsigned

/-- All warnings of a migrated project are about it. -/
theorem signed_of_migrateProject {us : List Unit_} {written : List Location}
    (h : m.migrateProject t p us = (u, .ok (w, written))) :
    ∀ x ∈ w.warnings, x.project = some p.name := by
  rw [migrateProject_eq] at h
  split at h
  · simp at h
  · next hprepare =>
    have hsigned := signed_of_prepare hprepare
    split at h
    · obtain ⟨-, rfl, -⟩ := by simpa using h
      exact hsigned
    · split at h
      · simp at h
      · obtain ⟨-, rfl, -⟩ := by simpa using h
        exact hsigned

end Retarget.Migration
