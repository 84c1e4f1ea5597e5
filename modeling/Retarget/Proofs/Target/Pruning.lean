import Retarget.Proofs.Target.Sifting
import Retarget.Proofs.Target.Stripping

/-!
# Pruning a target

What the default options and the overrides lose one after the other adds up to
`Target.pruned`: a target sifted but for the configurations as a whole and the name of the
default one.

A loop over the configurations changes one entry of one field at a time;
`Target.mapConfigurations` is such a change, and changes of this kind add up.
-/

namespace Retarget

namespace Target

open OrderedMap (KeepsKeys)

variable {t u : Target} {p q p' q' : String × Json → Bool} {x : String × Json}
  {m : Members} {f g : Members → Members} {k name : String}

/-- Sifting the entry of one key. -/
theorem adjust_siftEntry (hm : m.keys.Nodup) :
    m.adjust k (siftEntry p) = match (m.get? k).bind Json.members? with
      | none => m
      | some o =>
        if (o.filter p).isEmpty then m.remove k else m.insert k (.object (o.filter p)) := by
  rw [OrderedMap.adjust_eq (keepsKeys_siftEntry p) hm]
  cases hget : m.get? k with
  | none => rfl
  | some v =>
    cases v with
    | object o =>
      simp only [siftEntry_object, Option.bind_some, Json.members?]
      by_cases hempty : (o.filter p).isEmpty = true
      · simp [hempty]
      · simp [hempty]
    | _ => exact OrderedMap.insert_of_get? hget

theorem distinct_adjust_siftEntry (hm : (Json.object m).Distinct) (k : String)
    (p : String × Json → Bool) : (Json.object (m.adjust k (siftEntry p))).Distinct := by
  refine hm.filterMap ((keepsKeys_siftEntry p).at_ k) fun x y hx hxy => ?_
  split at hxy
  · exact distinct_of_siftEntry hx hxy
  · cases hxy
    exact hx

theorem get?_of_membersField? (h : t.membersField? k = some m) :
    t.fields.get? k = some (.object m) := by
  obtain ⟨v, hv, hm⟩ := Option.bind_eq_some_iff.mp h
  cases v with
  | object n => cases hm; exact hv
  | _ => cases hm

/-! ## Changing the configurations -/

/-- An entry with its members changed, if it holds an object. -/
def mapMembers (f : Members → Members) (x : String × Json) : String × Json :=
  match x.2 with
  | .object m => (x.1, .object (f m))
  | _ => x

theorem mapMembers_fst (f : Members → Members) (x : String × Json) :
    (mapMembers f x).1 = x.1 := by
  unfold mapMembers
  split
  · rfl
  · rfl

theorem mapMembers_mapMembers (f g : Members → Members) (x : String × Json) :
    mapMembers g (mapMembers f x) = mapMembers (fun m => g (f m)) x := by
  obtain ⟨k, v⟩ := x
  cases v <;> rfl

/-- Changes the configurations. -/
def mapConfigurations (t : Target) (f : Members → Members) : Target :=
  match t.configurations? with
  | some m => t.setField "configurations" (.object (f m))
  | none => t

theorem mapConfigurations_of_some (h : t.configurations? = some m) :
    t.mapConfigurations f = t.setField "configurations" (.object (f m)) := by
  rw [mapConfigurations, h]

theorem mapConfigurations_of_none (h : t.configurations? = none) :
    t.mapConfigurations f = t := by
  rw [mapConfigurations, h]

theorem configurations?_setField (t : Target) (m : Members) :
    (t.setField "configurations" (.object m)).configurations? = some m := by
  rw [configurations?, membersField?, setField, OrderedMap.get?_insert_self]
  rfl

theorem configurations?_mapConfigurations (t : Target) (f : Members → Members) :
    (t.mapConfigurations f).configurations? = t.configurations?.map f := by
  cases h : t.configurations? with
  | none => rw [mapConfigurations_of_none h, h]; rfl
  | some m => rw [mapConfigurations_of_some h, configurations?_setField]; rfl

theorem mapConfigurations_congr (h : ∀ m, t.configurations? = some m → f m = g m) :
    t.mapConfigurations f = t.mapConfigurations g := by
  cases hm : t.configurations? with
  | none => rw [mapConfigurations_of_none hm, mapConfigurations_of_none hm]
  | some m => rw [mapConfigurations_of_some hm, mapConfigurations_of_some hm, h m hm]

theorem mapConfigurations_id (t : Target) : t.mapConfigurations (fun m => m) = t := by
  cases hm : t.configurations? with
  | none => exact mapConfigurations_of_none hm
  | some m =>
    rw [mapConfigurations_of_some hm, setField,
      OrderedMap.insert_of_get? (get?_of_membersField? hm)]

/-- Changes to the configurations add up. -/
theorem mapConfigurations_mapConfigurations (t : Target) (f g : Members → Members) :
    (t.mapConfigurations f).mapConfigurations g = t.mapConfigurations fun m => g (f m) := by
  cases hm : t.configurations? with
  | none => rw [mapConfigurations_of_none hm, mapConfigurations_of_none hm,
      mapConfigurations_of_none hm]
  | some m =>
    rw [mapConfigurations_of_some hm, mapConfigurations_of_some (configurations?_setField _ _),
      mapConfigurations_of_some hm, setField, setField, setField, OrderedMap.insert_insert]

theorem hasConfigurations_mapConfigurations (t : Target) (f : Members → Members) :
    (t.mapConfigurations f).hasConfigurations = t.hasConfigurations := by
  cases hm : t.configurations? with
  | none => rw [mapConfigurations_of_none hm]
  | some m =>
    have hhas : t.hasConfigurations = true := by
      rw [hasConfigurations, OrderedMap.has, get?_of_membersField? hm]
      rfl
    rw [mapConfigurations_of_some hm, hhas, hasConfigurations, setField, OrderedMap.has_insert]
    simp

/-- Changing the configurations changes one field. -/
theorem fields_mapConfigurations (ht : t.fields.keys.Nodup) (f : Members → Members) :
    (t.mapConfigurations f).fields =
      t.fields.adjust "configurations" fun x => some (mapMembers f x) := by
  have hkeeps : KeepsKeys fun x => some (mapMembers f x) := by
    intro x y hxy
    cases hxy
    exact mapMembers_fst f x
  rw [OrderedMap.adjust_eq hkeeps ht, mapConfigurations, configurations?, membersField?]
  cases hget : t.fields.get? "configurations" with
  | none => rfl
  | some v =>
    cases v with
    | object m => rfl
    | _ => exact (OrderedMap.insert_of_get? hget).symm

theorem distinct_mapConfigurations (ht : t.toJson.Distinct)
    (hf : ∀ m, (Json.object m).Distinct → (Json.object (f m)).Distinct) :
    (t.mapConfigurations f).toJson.Distinct := by
  cases hm : t.configurations? with
  | none => rwa [mapConfigurations_of_none hm]
  | some m =>
    rw [mapConfigurations_of_some hm]
    exact Json.Distinct.insert ht (hf m (distinct_members ht hm))

/-! ## The overrides of one configuration -/

theorem exists_configurations {o : Members} (h : t.configuration? name = some o) :
    ∃ m, t.configurations? = some m ∧ m.get? name = some (.object o) := by
  obtain ⟨v, hv, hmembers⟩ := Option.bind_eq_some_iff.mp h
  obtain ⟨m, hm, hget⟩ := Option.bind_eq_some_iff.mp hv
  obtain rfl : v = .object o := by cases v <;> cases hmembers; rfl
  exact ⟨m, hm, hget⟩

theorem distinct_overrides {o : Members} (ht : t.toJson.Distinct)
    (h : t.configuration? name = some o) : (Json.object o).Distinct := by
  obtain ⟨m, hm, hget⟩ := exists_configurations h
  exact (distinct_members ht hm).value (OrderedMap.mem_of_get? hget)

theorem setConfiguration_eq {o : Members} (h : t.configuration? name = some o) (l : Members) :
    t.setConfiguration name l = t.mapConfigurations fun m => m.insert name (.object l) := by
  obtain ⟨m, hm, -⟩ := exists_configurations h
  rw [setConfiguration, get?_of_membersField? hm, mapConfigurations_of_some hm]

theorem removeConfiguration_eq (t : Target) (name : String) :
    t.removeConfiguration name = t.mapConfigurations fun m => m.remove name :=
  rfl

theorem configuration?_setConfiguration {o : Members} (h : t.configuration? name = some o)
    (l : Members) : (t.setConfiguration name l).configuration? name = some l := by
  obtain ⟨m, hm, -⟩ := exists_configurations h
  rw [setConfiguration_eq h, configuration?, configurations?_mapConfigurations, hm]
  dsimp only [Option.map_some, Option.bind_some]
  rw [OrderedMap.get?_insert_self]
  rfl

theorem setConfiguration_self {o : Members} (h : t.configuration? name = some o) :
    t.setConfiguration name o = t := by
  obtain ⟨m, hm, hget⟩ := exists_configurations h
  rw [setConfiguration_eq h]
  refine (mapConfigurations_congr fun n hn => ?_).trans t.mapConfigurations_id
  obtain rfl : m = n := Option.some.inj (hm.symm.trans hn)
  exact OrderedMap.insert_of_get? hget

theorem setConfiguration_setConfiguration {o : Members} (h : t.configuration? name = some o)
    (l k : Members) :
    (t.setConfiguration name l).setConfiguration name k = t.setConfiguration name k := by
  rw [setConfiguration_eq (configuration?_setConfiguration h l), setConfiguration_eq h,
    setConfiguration_eq h, mapConfigurations_mapConfigurations]
  apply mapConfigurations_congr
  intro m _
  rw [OrderedMap.insert_insert]

theorem removeConfiguration_setConfiguration {o : Members} (h : t.configuration? name = some o)
    (l : Members) :
    (t.setConfiguration name l).removeConfiguration name = t.removeConfiguration name := by
  rw [removeConfiguration_eq, removeConfiguration_eq, setConfiguration_eq h,
    mapConfigurations_mapConfigurations]
  apply mapConfigurations_congr
  intro m _
  rw [OrderedMap.remove_insert_self]

/-! ## Sifting one configuration after the other -/

/-- Sifts the overrides of a configuration, which goes if none is left. -/
def siftConfiguration (p : String × Json → Bool) (t : Target) (name : String) : Target :=
  t.mapConfigurations fun m => m.adjust name (siftEntry p)

theorem distinct_siftConfiguration (ht : t.toJson.Distinct) :
    (t.siftConfiguration p name).toJson.Distinct :=
  distinct_mapConfigurations ht fun _ hm => distinct_adjust_siftEntry hm name p

/-- A configuration without overrides stays as it is. -/
theorem siftConfiguration_of_none (ht : t.toJson.Distinct) (h : t.configuration? name = none) :
    t.siftConfiguration p name = t := by
  refine (mapConfigurations_congr fun m hm => ?_).trans t.mapConfigurations_id
  rw [adjust_siftEntry (distinct_members ht hm).keys]
  have hnone : (m.get? name).bind Json.members? = none := by
    rwa [configuration?, hm, Option.bind_some] at h
  rw [hnone]

theorem siftConfiguration_of_some (ht : t.toJson.Distinct) {o : Members}
    (h : t.configuration? name = some o) :
    t.siftConfiguration p name =
      if (o.filter p).isEmpty then t.removeConfiguration name
      else t.setConfiguration name (o.filter p) := by
  obtain ⟨m, hm, hget⟩ := exists_configurations h
  rw [siftConfiguration, mapConfigurations_of_some hm,
    adjust_siftEntry (distinct_members ht hm).keys, hget]
  dsimp only [Option.bind_some, Json.members?]
  split
  · rw [removeConfiguration_eq, mapConfigurations_of_some hm]
  · rw [setConfiguration_eq h, mapConfigurations_of_some hm]

/-- The other configurations stay as they are. -/
theorem configuration?_siftConfiguration_of_ne {other : String} (ht : t.toJson.Distinct)
    (h : other ≠ name) :
    (t.siftConfiguration p name).configuration? other = t.configuration? other := by
  unfold configuration?
  rw [siftConfiguration, configurations?_mapConfigurations]
  cases hm : t.configurations? with
  | none => rfl
  | some m =>
    dsimp only [Option.map_some, Option.bind_some]
    rw [OrderedMap.get?_adjust_of_ne (keepsKeys_siftEntry p) (distinct_members ht hm).keys h]

/-- A loop over the configurations of a target that sifts one after the other. -/
theorem foldl_siftConfiguration (ht : t.toJson.Distinct) (step : Target → String → Target)
    (hstep : ∀ u name, u.toJson.Distinct → step u name = u.siftConfiguration p name) :
    t.configurationNames.foldl step t = t.mapConfigurations (List.filterMap (siftEntry p)) := by
  have hloop (names : List String) (u : Target) (hu : u.toJson.Distinct) :
      names.foldl step u =
        u.mapConfigurations fun m => names.foldl (fun m k => m.adjust k (siftEntry p)) m := by
    induction names generalizing u with
    | nil => exact u.mapConfigurations_id.symm
    | cons name names ih =>
      rw [List.foldl_cons, hstep u name hu, ih _ (distinct_siftConfiguration hu),
        siftConfiguration, mapConfigurations_mapConfigurations]
      rfl
  rw [hloop _ _ ht]
  apply mapConfigurations_congr
  intro m hm
  have hnames : t.configurationNames = m.keys := by
    rw [configurationNames, hm]
    rfl
  rw [hnames, OrderedMap.foldl_adjust_keys (keepsKeys_siftEntry p)
    (distinct_members ht hm).keys]

/-! ## Pruned targets -/

/-- What is left of a field if neither the configurations as a whole nor the name of the
default one go. -/
def pruneField (option override : String × Json → Bool) (x : String × Json) :
    Option (String × Json) :=
  if x.1 = "options" then siftEntry option x
  else if x.1 = "configurations" then
    some (mapMembers (List.filterMap (siftEntry override)) x)
  else some x

/-- A target with its wanted options and overrides only, which keeps its configurations
even if none is left. -/
def pruned (t : Target) (option override : String × Json → Bool) : Target :=
  ⟨t.fields.filterMap (pruneField option override)⟩

theorem keepsKeys_pruneField (p q : String × Json → Bool) : KeepsKeys (pruneField p q) := by
  intro x y hxy
  unfold pruneField at hxy
  split at hxy
  · exact keepsKeys_siftEntry p x y hxy
  · split at hxy
    · cases hxy
      exact mapMembers_fst _ x
    · cases hxy
      rfl

theorem distinct_pruned (ht : t.toJson.Distinct) : (t.pruned p q).toJson.Distinct := by
  refine Json.Distinct.filterMap ht (keepsKeys_pruneField p q) fun x y hx hxy => ?_
  obtain ⟨k, v⟩ := x
  unfold pruneField at hxy
  split at hxy
  · exact distinct_of_siftEntry hx hxy
  · split at hxy
    · cases v with
      | object m =>
        cases hxy
        exact Json.Distinct.filterMap hx (keepsKeys_siftEntry q) fun _ _ => distinct_of_siftEntry
      | _ => cases hxy; exact hx
    · cases hxy
      exact hx

theorem pruneField_options (h : x.1 = "options") : pruneField p q x = siftEntry p x :=
  if_pos h

theorem pruneField_configurations (h : x.1 = "configurations") :
    pruneField p q x = some (mapMembers (List.filterMap (siftEntry q)) x) := by
  rw [pruneField, if_neg (by simp [h]), if_pos h]

theorem pruneField_other (hoptions : x.1 ≠ "options") (hconfigurations : x.1 ≠ "configurations") :
    pruneField p q x = some x := by
  rw [pruneField, if_neg hoptions, if_neg hconfigurations]

theorem distinct_adjust_options (ht : t.toJson.Distinct) (p : String × Json → Bool) :
    (Target.mk (t.fields.adjust "options" (siftEntry p))).toJson.Distinct :=
  distinct_adjust_siftEntry ht "options" p

/-- Pruning is sifting the options, then the configurations. -/
theorem pruned_eq (ht : t.toJson.Distinct) :
    (Target.mk (t.fields.adjust "options" (siftEntry p))).mapConfigurations
      (List.filterMap (siftEntry q)) = t.pruned p q := by
  have hnodup := fields_nodup (distinct_adjust_options ht p)
  refine congrArg Target.mk ((fields_mapConfigurations hnodup _).trans ?_)
  dsimp only
  nth_rewrite 2 [OrderedMap.adjust]
  rw [OrderedMap.adjust_filterMap ((keepsKeys_siftEntry p).at_ _)]
  apply List.filterMap_congr
  intro x _
  by_cases hconfigurations : x.1 = "configurations"
  · rw [pruneField_configurations hconfigurations, if_pos hconfigurations,
      if_neg (by simp [hconfigurations]), Option.bind_some]
  · rw [if_neg hconfigurations, pruneField, if_neg hconfigurations]

theorem pruned_pruned (t : Target) :
    (t.pruned p q).pruned p' q' = t.pruned (fun x => p x && p' x) (fun x => q x && q' x) := by
  refine congrArg Target.mk ?_
  rw [pruned, List.filterMap_filterMap]
  apply List.filterMap_congr
  intro x _
  by_cases hoptions : x.1 = "options"
  · rw [pruneField_options hoptions, pruneField_options hoptions, ← siftEntry_bind]
    apply Option.bind_congr
    intro y hy
    rw [pruneField_options ((keepsKeys_siftEntry p x y hy).trans hoptions)]
  by_cases hconfigurations : x.1 = "configurations"
  · have hkey : (mapMembers (List.filterMap (siftEntry q)) x).1 = "configurations" :=
      (mapMembers_fst _ x).trans hconfigurations
    have hboth : (fun m : Members => (m.filterMap (siftEntry q)).filterMap (siftEntry q')) =
        List.filterMap (siftEntry fun x => q x && q' x) := by
      funext m
      exact filterMap_siftEntry m
    rw [pruneField_configurations hconfigurations, pruneField_configurations hconfigurations,
      Option.bind_some, pruneField_configurations hkey, mapMembers_mapMembers, hboth]
  · rw [pruneField_other hoptions hconfigurations, pruneField_other hoptions hconfigurations,
      Option.bind_some, pruneField_other hoptions hconfigurations]

/-- Pruning leaves the configurations that sifting leaves. -/
theorem configurations?_pruned (ht : t.toJson.Distinct) :
    (t.pruned p q).configurations? = t.configurations?.map (List.filterMap (siftEntry q)) := by
  rw [← pruned_eq ht, configurations?_mapConfigurations]
  congr 1
  unfold configurations? membersField?
  rw [OrderedMap.get?_adjust_of_ne (keepsKeys_siftEntry p) (fields_nodup ht) (by decide)]

theorem hasConfigurations_pruned (ht : t.toJson.Distinct) :
    (t.pruned p q).hasConfigurations = t.hasConfigurations := by
  rw [← pruned_eq ht, hasConfigurations_mapConfigurations]
  unfold hasConfigurations OrderedMap.has
  rw [OrderedMap.get?_adjust_of_ne (keepsKeys_siftEntry p) (fields_nodup ht) (by decide)]

theorem siftedConfigurations_eq_pruned (ht : t.toJson.Distinct) :
    t.siftedConfigurations q = (t.pruned p q).configurations?.getD [] := by
  rw [configurations?_pruned ht, siftedConfigurations]
  cases t.configurations? with
  | none => rfl
  | some m => rfl

end Target

end Retarget
