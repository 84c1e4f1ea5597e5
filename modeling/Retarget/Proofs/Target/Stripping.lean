import Retarget.Target.Reduction

/-!
# What stripping leaves of a target

Stripping a part of a target keeps its executor.  Stripped default options name
no old config any more, and stripping a configuration does not touch the default
options.
-/

namespace Retarget

namespace Target

variable {key : String} (t : Target) (v : Json)

theorem stringField?_setField {k : String} (h : key ≠ k) :
    (t.setField k v).stringField? key = t.stringField? key := by
  simp [stringField?, setField, OrderedMap.get?_insert_of_ne v h]

theorem stringField?_removeField {k : String} (h : key ≠ k) :
    (t.removeField k).stringField? key = t.stringField? key := by
  simp [stringField?, removeField, OrderedMap.get?_remove_of_ne h]

theorem membersField?_setField {k : String} (h : key ≠ k) :
    (t.setField k v).membersField? key = t.membersField? key := by
  simp [membersField?, setField, OrderedMap.get?_insert_of_ne v h]

theorem options?_setOptions (m : Members) : (t.setOptions m).options? = some m := by
  simp [options?, setOptions, membersField?, setField, OrderedMap.get?_insert_self, Json.members?]

theorem options?_removeOptions : t.removeOptions.options? = none := by
  simp [options?, removeOptions, membersField?, removeField, OrderedMap.get?_remove_self]

/-- The overrides of configurations are apart from everything else. -/
theorem setConfiguration_apart (name : String) (m : Members) :
    (t.setConfiguration name m).executor? = t.executor? ∧
      (t.setConfiguration name m).options? = t.options? := by
  unfold setConfiguration
  split
  · exact ⟨stringField?_setField _ _ (by decide), membersField?_setField _ _ (by decide)⟩
  · exact ⟨stringField?_setField _ _ (by decide), membersField?_setField _ _ (by decide)⟩
  · exact ⟨rfl, rfl⟩

theorem removeConfiguration_apart (name : String) :
    (t.removeConfiguration name).executor? = t.executor? ∧
      (t.removeConfiguration name).options? = t.options? := by
  unfold removeConfiguration
  split
  · exact ⟨stringField?_setField _ _ (by decide), membersField?_setField _ _ (by decide)⟩
  · exact ⟨rfl, rfl⟩

end Target

namespace Reduction

variable (r : Reduction) (t : Target)

theorem legacyConfig?_congr {t u : Target} (h : t.options? = u.options?) :
    r.legacyConfig? t = r.legacyConfig? u := by
  have hstring : t.optionString? = u.optionString? := by
    funext key
    simp only [Target.optionString?, h]
  simp only [legacyConfig?, hstring]

theorem executor?_stripBase : (r.stripBase t).1.executor? = t.executor? := by
  have kept (left : Members) :
      (if left.isEmpty then t.removeOptions else t.setOptions left).executor? = t.executor? := by
    split
    · exact t.stringField?_removeField (show "executor" ≠ "options" by decide)
    · exact t.stringField?_setField _ (show "executor" ≠ "options" by decide)
  unfold stripBase
  split
  · rfl
  · exact kept _

/-- Stripped default options name no old config. -/
theorem legacyConfig?_stripBase : r.legacyConfig? (r.stripBase t).1 = .none := by
  unfold legacyConfig?
  cases hkey : r.legacyKey with
  | none => rfl
  | some key =>
    rw [Option.bind_some, stripBase]
    cases hopt : t.options? with
    | none => simp [Target.optionString?, hopt]
    | some options =>
      simp only [hkey]
      split
      · simp [Target.optionString?, Target.options?_removeOptions]
      · simp [Target.optionString?, Target.options?_setOptions, OrderedMap.get?_remove_self]

theorem stripVariant_apart (name : String) :
    (r.stripVariant t name).1.executor? = t.executor? ∧
      (r.stripVariant t name).1.options? = t.options? := by
  unfold stripVariant
  split
  · exact ⟨rfl, rfl⟩
  · dsimp only
    split
    · exact t.removeConfiguration_apart name
    · exact t.setConfiguration_apart name _

theorem releaseOverride_apart (name : String) (migrated : Option Location) :
    (r.releaseOverride t name migrated).1.executor? = t.executor? ∧
      (r.releaseOverride t name migrated).1.options? = t.options? := by
  unfold releaseOverride
  split
  · split
    · exact ⟨rfl, rfl⟩
    · dsimp only
      split
      · split
        · exact t.setConfiguration_apart name _
        · exact ⟨rfl, rfl⟩
      · exact ⟨rfl, rfl⟩
  · exact ⟨rfl, rfl⟩

theorem executor?_stripUnit (part : Option String) :
    (r.stripUnit t part).1.executor? = t.executor? := by
  cases part with
  | none => exact r.executor?_stripBase t
  | some name => exact (r.stripVariant_apart t name).1

/-- Stripping never makes a target name another old config. -/
theorem legacyConfig?_stripUnit (part : Option String) :
    r.legacyConfig? (r.stripUnit t part).1 = .none ∨
      r.legacyConfig? (r.stripUnit t part).1 = r.legacyConfig? t := by
  cases part with
  | none => exact .inl (r.legacyConfig?_stripBase t)
  | some name => exact .inr (r.legacyConfig?_congr (r.stripVariant_apart t name).2)

end Reduction

end Retarget
