import Retarget.Proofs.Target.Pruning
import Retarget.Target.Reduction

/-!
# Tidying a target

`Reduction.tidy` drops empty options, one empty configuration after the other, then the
configurations if none is left, and a name of the default configuration that leads
nowhere.  All this together is `Target.sifted` with everything wanted: only what is empty
goes (`Reduction.tidy_spec`).  To tidy what was pruned is to sift
(`Reduction.tidy_pruned`).
-/

namespace Retarget.Reduction

open Target

variable {t : Target} {p q : String × Json → Bool}

/-! ## The steps -/

theorem tidyOptions_eq (ht : t.toJson.Distinct) :
    tidyOptions t = ⟨t.fields.adjust "options" (siftEntry fun _ => true)⟩ := by
  rw [adjust_siftEntry (fields_nodup ht), tidyOptions]
  rw [show (t.fields.get? "options").bind Json.members? = t.options? from rfl]
  cases h : t.options? with
  | none => rfl
  | some o =>
    dsimp only
    rw [List.filter_true]
    cases o with
    | nil => rfl
    | cons x o =>
      exact congrArg Target.mk (OrderedMap.insert_of_get? (get?_of_membersField? h)).symm

theorem dropEmpty_eq (ht : t.toJson.Distinct) (name : String) :
    dropEmpty t name = t.siftConfiguration (fun _ => true) name := by
  rw [dropEmpty]
  cases h : t.configuration? name with
  | none => rw [siftConfiguration_of_none ht h]
  | some o =>
    rw [siftConfiguration_of_some ht h, List.filter_true]
    cases o with
    | nil => rfl
    | cons x o => exact (setConfiguration_self h).symm

/-- Drops the configurations if there are none, with the name of the default one. -/
def dropBare (t : Target) : Target :=
  if t.hasConfigurations && t.configurationNames.isEmpty then
    t.removeConfigurations.removeDefaultConfiguration
  else t

theorem tidyConfigurations_eq (ht : t.toJson.Distinct) :
    tidyConfigurations t =
      dropBare (t.mapConfigurations (List.filterMap (siftEntry fun _ => true))) := by
  rw [tidyConfigurations, dropBare, hasConfigurations_mapConfigurations]
  by_cases hhas : t.hasConfigurations = true
  · rw [if_pos hhas, foldl_siftConfiguration ht dropEmpty fun u name hu => dropEmpty_eq hu name]
    simp [hhas]
  · have hnone : t.configurations? = .none := by
      have hget : t.fields.get? "configurations" = .none := by
        simpa [hasConfigurations, OrderedMap.has] using hhas
      rw [configurations?, membersField?, hget]
      rfl
    rw [if_neg hhas, mapConfigurations_of_none hnone]
    simp [hhas]

theorem tidy_eq_pruned (ht : t.toJson.Distinct) :
    tidy t = tidyDefault (dropBare (t.pruned (fun _ => true) fun _ => true)) := by
  rw [tidy, tidyOptions_eq ht, tidyConfigurations_eq (distinct_adjust_options ht _),
    pruned_eq ht]

/-- Whether a name of the default configuration leads nowhere. -/
def leadsNowhere (t : Target) : Json → Bool
  | .string name => (t.configuration? name).isNone
  | _ => false

theorem tidyDefault_eq (ht : t.toJson.Distinct) :
    tidyDefault t = ⟨t.fields.adjust "defaultConfiguration"
      fun x => if leadsNowhere t x.2 then .none else some x⟩ := by
  have hkeeps : OrderedMap.KeepsKeys fun x : String × Json =>
      if leadsNowhere t x.2 then .none else some x := by
    intro x y hxy
    dsimp only at hxy
    split at hxy
    · cases hxy
    · cases hxy
      rfl
  rw [OrderedMap.adjust_eq hkeeps (fields_nodup ht), tidyDefault, defaultConfiguration?,
    stringField?]
  cases hget : t.fields.get? "defaultConfiguration" with
  | none => rfl
  | some v =>
    have hsame := OrderedMap.insert_of_get? hget
    cases v with
    | string name =>
      by_cases hgone : (t.configuration? name).isNone = true
      · simp [Json.string?, leadsNowhere, hgone, removeDefaultConfiguration, removeField]
      · simp [Json.string?, leadsNowhere, hgone, hsame]
    | _ => exact congrArg Target.mk hsame.symm

/-- Where no configuration is left, the configurations go, and any name of the default
one. -/
theorem sifted_of_bare (hhas : t.hasConfigurations = true)
    (hnone : (t.siftedConfigurations q).isEmpty = true) :
    (t.pruned p q).removeConfigurations.removeDefaultConfiguration = t.sifted p q := by
  refine congrArg Target.mk ?_
  simp only [removeConfigurations, removeField, pruned, OrderedMap.remove_eq_adjust]
  rw [OrderedMap.adjust, OrderedMap.adjust, List.filterMap_filterMap, List.filterMap_filterMap]
  apply List.filterMap_congr
  intro x _
  by_cases hoptions : x.1 = "options"
  · rw [pruneField_options hoptions, siftField_options hoptions]
    cases hx : siftEntry p x with
    | none => rfl
    | some y =>
      have hy : y.1 = "options" := (keepsKeys_siftEntry p x y hx).trans hoptions
      simp [hy]
  by_cases hconfigurations : x.1 = "configurations"
  · rw [pruneField_configurations hconfigurations, siftField_configurations hconfigurations,
      if_pos hnone]
    simp [mapMembers_fst, hconfigurations]
  rw [pruneField_other hoptions hconfigurations]
  by_cases hdefault : x.1 = "defaultConfiguration"
  · have hloses : t.losesDefault q x.2 = true := by simp [losesDefault, hhas, hnone]
    rw [siftField_default hdefault, if_pos hloses]
    simp [hdefault]
  · rw [siftField_other hoptions hconfigurations hdefault]
    simp [hconfigurations, hdefault]

/-- Where configurations are left, only a name of the default one that leads nowhere
goes. -/
theorem sifted_of_left (ht : t.toJson.Distinct)
    (hleft : (t.hasConfigurations && (t.siftedConfigurations q).isEmpty) = false) :
    tidyDefault (t.pruned p q) = t.sifted p q := by
  have hnowhere (v : Json) : leadsNowhere (t.pruned p q) v = t.losesDefault q v := by
    unfold losesDefault
    rw [hleft, Bool.false_or]
    cases v with
    | string name =>
      rw [leadsNowhere, configuration?_eq, ← siftedConfigurations_eq_pruned ht]
    | _ => rfl
  rw [tidyDefault_eq (distinct_pruned ht)]
  refine congrArg Target.mk ?_
  rw [pruned, OrderedMap.adjust_filterMap (keepsKeys_pruneField p q)]
  apply List.filterMap_congr
  intro x hx
  by_cases hoptions : x.1 = "options"
  · rw [if_neg (by simp [hoptions]), pruneField_options hoptions, siftField_options hoptions]
  by_cases hconfigurations : x.1 = "configurations"
  · have hhas : t.hasConfigurations = true := by
      rw [hasConfigurations, ← hconfigurations]
      exact OrderedMap.has_of_mem hx
    have hsome : ¬(t.siftedConfigurations q).isEmpty = true := by
      simpa [hhas] using hleft
    have hvalue : t.fields.get? "configurations" = some x.2 :=
      OrderedMap.get?_of_mem (fields_nodup ht) (by rwa [← hconfigurations])
    rw [if_neg (by simp [hconfigurations]), pruneField_configurations hconfigurations,
      siftField_configurations hconfigurations, if_neg hsome]
    cases hm : t.configurations? with
    | none => simp [siftedConfigurations, hm] at hsome
    | some m =>
      obtain ⟨key, v⟩ := x
      obtain rfl := Option.some.inj (hvalue.symm.trans (get?_of_membersField? hm))
      simp [mapMembers, siftedConfigurations, hm]
  rw [pruneField_other hoptions hconfigurations]
  by_cases hdefault : x.1 = "defaultConfiguration"
  · rw [if_pos hdefault, siftField_default hdefault, Option.bind_some]
    exact congrArg (fun b => if b then Option.none else some x) (hnowhere x.2)
  · rw [if_neg hdefault, siftField_other hoptions hconfigurations hdefault]

/-- What is pruned is sifted once it loses the configurations if none is left, and a name
of the default one that leads nowhere. -/
theorem sifted_eq_pruned (ht : t.toJson.Distinct) :
    tidyDefault (dropBare (t.pruned p q)) = t.sifted p q := by
  have hempty : (t.pruned p q).configurationNames.isEmpty =
      (t.siftedConfigurations q).isEmpty := by
    rw [siftedConfigurations_eq_pruned (p := p) ht, configurationNames, List.isEmpty_map]
  rw [dropBare, hasConfigurations_pruned ht, hempty]
  by_cases hbare : (t.hasConfigurations && (t.siftedConfigurations q).isEmpty) = true
  · obtain ⟨hhas, hnone⟩ := Bool.and_eq_true_iff.mp hbare
    rw [if_pos hbare, ← sifted_of_bare hhas hnone, tidyDefault, removeDefaultConfiguration,
      removeField, defaultConfiguration?, stringField?, OrderedMap.get?_remove_self]
    rfl
  · rw [if_neg hbare, sifted_of_left ht ((Bool.not_eq_true _).mp hbare)]

theorem tidy_pruned (ht : t.toJson.Distinct) : tidy (t.pruned p q) = t.sifted p q := by
  rw [tidy_eq_pruned (distinct_pruned ht), pruned_pruned]
  simp only [Bool.and_true]
  exact sifted_eq_pruned ht

/-- To tidy a target is to sift it with everything wanted. -/
theorem tidy_eq_sifted (ht : t.toJson.Distinct) :
    tidy t = t.sifted (fun _ => true) (fun _ => true) :=
  (tidy_eq_pruned ht).trans (sifted_eq_pruned ht)

/-! ## What tidying does -/

/-- Tidying makes any target tidy.  It only deletes: what is left of each field is said by
`Target.siftField` with everything wanted.  A tidy target stays as it is, and so tidying
once is enough. -/
theorem tidy_spec (t : Target) (ht : t.toJson.Distinct) :
    (tidy t).Tidy ∧ tidy t = t.sifted (fun _ => true) (fun _ => true) ∧
      (t.Tidy → tidy t = t) ∧ tidy (tidy t) = tidy t := by
  have htidy : (tidy t).Tidy := by
    rw [tidy_eq_sifted ht]
    exact tidy_sifted ht
  have hdistinct : (tidy t).toJson.Distinct := by
    rw [tidy_eq_sifted ht]
    exact distinct_sifted ht _ _
  have hfixed {u : Target} (hu : u.toJson.Distinct) (h : u.Tidy) : tidy u = u :=
    (tidy_eq_sifted hu).trans (h.sifted_eq hu)
  exact ⟨htidy, tidy_eq_sifted ht, hfixed ht, hfixed hdistinct htidy⟩

/-- A target with empty options, with an empty configuration and one that is no object,
which is the default one. -/
def tangled : Target :=
  ⟨[("options", .object []), ("executor", .string "webpack"),
    ("configurations", .object [("ci", .object []), ("production", .null)]),
    ("defaultConfiguration", .string "production")]⟩

theorem tidy_spec_tangled :
    tangled.toJson.Distinct ∧ (tidy tangled).Tidy ∧
      (tidy tangled).fields = [("executor", .string "webpack"),
        ("configurations", .object [("production", .null)])] ∧
      tidy (tidy tangled) = tidy tangled := by
  have hdistinct : tangled.toJson.Distinct := by
    simp [tangled, Target.toJson, Json.distinct_object_iff, OrderedMap.keys,
      Json.Distinct.null, Json.Distinct.string]
  obtain ⟨htidy, hsifted, -, hagain⟩ := tidy_spec tangled hdistinct
  refine ⟨hdistinct, htidy, ?_, hagain⟩
  rw [hsifted]
  decide +kernel

end Retarget.Reduction
