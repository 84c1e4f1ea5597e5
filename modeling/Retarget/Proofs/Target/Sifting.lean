import Retarget.Proofs.Json.Distinct
import Retarget.Proofs.Json.Equality
import Retarget.Proofs.OrderedMap.Adjusting
import Retarget.Target

/-!
# Sifting a target

`Target.sifted` keeps the wanted default options and the wanted overrides of every
configuration, and drops what is left empty by that or was empty before.  It is said field
by field, from what the target holds at first.

Sifting twice is sifting for what is wanted both times (`Target.sifted_sifted`).  What is
left is tidy, and a tidy target that holds nothing unwanted stays as it is.
-/

namespace Retarget

theorem Json.Distinct.filterMap {ms : Members}
    {f : String × Json → Option (String × Json)} (h : (Json.object ms).Distinct)
    (hf : OrderedMap.KeepsKeys f) (hv : ∀ x y, x.2.Distinct → f x = some y → y.2.Distinct) :
    (Json.object (List.filterMap f ms)).Distinct := by
  refine .object (hf.nodup h.keys) fun y hy => ?_
  obtain ⟨x, hx, hxy⟩ := List.mem_filterMap.mp hy
  exact hv x y (h.value hx) hxy

namespace Target

open OrderedMap (KeepsKeys)

variable {t : Target} {p q p' q' : String × Json → Bool} {x y : String × Json}
  {m : Members} {name : String}

/-- Of an entry that holds an object the wanted members, if there are any; any other entry
as it is. -/
def siftEntry (wanted : String × Json → Bool) (x : String × Json) : Option (String × Json) :=
  match x.2 with
  | .object m => if (m.filter wanted).isEmpty then none else some (x.1, .object (m.filter wanted))
  | _ => some x

/-- The configurations with their wanted overrides, but for those without any. -/
def siftedConfigurations (t : Target) (override : String × Json → Bool) : Members :=
  (t.configurations?.getD []).filterMap (siftEntry override)

/-- Whether a name of the default configuration goes: because the configurations go, or
because it is a string and no configuration of that name with overrides is left. -/
def losesDefault (t : Target) (override : String × Json → Bool) (v : Json) : Bool :=
  t.hasConfigurations && (t.siftedConfigurations override).isEmpty ||
    match v with
    | .string name =>
      (((t.siftedConfigurations override).get? name).bind Json.members?).isNone
    | _ => false

/-- What is left of a field: of the options the wanted ones if there are any, of the
configurations those that are left if there are any, the name of the default configuration
unless it goes, and any other field. -/
def siftField (t : Target) (option override : String × Json → Bool) (x : String × Json) :
    Option (String × Json) :=
  if x.1 = "options" then siftEntry option x
  else if x.1 = "configurations" then
    if (t.siftedConfigurations override).isEmpty then none
    else some (x.1, .object (t.siftedConfigurations override))
  else if x.1 = "defaultConfiguration" ∧ t.losesDefault override x.2 then none
  else some x

/-- A target with its wanted options and overrides only, without what is empty. -/
def sifted (t : Target) (option override : String × Json → Bool) : Target :=
  ⟨t.fields.filterMap (t.siftField option override)⟩

/-! ## Sifting one entry -/

theorem keepsKeys_siftEntry (p : String × Json → Bool) : KeepsKeys (siftEntry p) := by
  intro x y hxy
  unfold siftEntry at hxy
  split at hxy
  · split at hxy
    · cases hxy
    · cases hxy
      rfl
  · cases hxy
    rfl

theorem siftEntry_object (p : String × Json → Bool) (name : String) (m : Members) :
    siftEntry p (name, .object m) =
      if (m.filter p).isEmpty then none else some (name, .object (m.filter p)) :=
  rfl

/-- An entry without members stays as it is. -/
theorem siftEntry_of_members?_eq_none (h : x.2.members? = none) : siftEntry p x = some x := by
  unfold siftEntry
  split
  · next m hm => simp [hm, Json.members?] at h
  · rfl

/-- An entry whose members are wanted stays as it is, unless it has none. -/
theorem siftEntry_of_wanted (h : x.2 ≠ .object [])
    (hall : ∀ m, x.2 = .object m → ∀ y ∈ m, p y = true) : siftEntry p x = some x := by
  obtain ⟨k, v⟩ := x
  cases v with
  | object m =>
    have hsame : m.filter p = m := List.filter_eq_self.mpr (hall m rfl)
    have hne : m ≠ [] := fun hm => h (by simp [hm])
    rw [siftEntry_object, hsame, if_neg (by simpa using hne)]
  | _ => rfl

/-- The members that are left are wanted. -/
theorem wanted_of_siftEntry (h : siftEntry p x = some y) (hy : y.2 = .object m) :
    ∀ z ∈ m, p z = true := by
  obtain ⟨k, v⟩ := x
  cases v with
  | object n =>
    rw [siftEntry_object] at h
    split at h
    · cases h
    · cases h
      cases hy
      exact fun z hz => List.of_mem_filter hz
  | _ => cases h; cases hy

theorem siftEntry_ne (h : siftEntry p x = some y) : y.2 ≠ .object [] := by
  unfold siftEntry at h
  split at h
  · split at h
    · cases h
    · next hne =>
      cases h
      simpa using hne
  · next hno =>
    cases h
    exact hno []

theorem distinct_of_siftEntry (hx : x.2.Distinct) (h : siftEntry p x = some y) :
    y.2.Distinct := by
  obtain ⟨k, v⟩ := x
  cases v with
  | object m =>
    rw [siftEntry_object] at h
    split at h
    · cases h
    · cases h
      exact hx.sublist List.filter_sublist
  | _ => cases h; exact hx

/-- Sifting an entry twice. -/
theorem siftEntry_bind (x : String × Json) :
    (siftEntry p x).bind (siftEntry q) = siftEntry (fun y => p y && q y) x := by
  obtain ⟨k, v⟩ := x
  cases v with
  | object m =>
    have hboth : m.filter (fun y => p y && q y) = (m.filter p).filter q := by
      rw [List.filter_filter]
      exact List.filter_congr fun y _ => Bool.and_comm _ _
    rw [siftEntry_object, siftEntry_object, hboth]
    by_cases hp : (m.filter p).isEmpty = true
    · rw [if_pos hp, List.isEmpty_iff.mp hp]
      rfl
    · rw [if_neg hp, Option.bind_some, siftEntry_object]
  | _ => rfl

theorem filterMap_siftEntry (m : Members) :
    (m.filterMap (siftEntry p)).filterMap (siftEntry q) =
      m.filterMap (siftEntry fun x => p x && q x) := by
  rw [List.filterMap_filterMap]
  exact List.filterMap_congr fun x _ => siftEntry_bind x

/-! ## Sifting one field -/

theorem siftField_options (h : x.1 = "options") : t.siftField p q x = siftEntry p x :=
  if_pos h

theorem siftField_configurations (h : x.1 = "configurations") :
    t.siftField p q x = if (t.siftedConfigurations q).isEmpty then none
      else some (x.1, .object (t.siftedConfigurations q)) := by
  rw [siftField, if_neg (by simp [h]), if_pos h]

theorem siftField_default (h : x.1 = "defaultConfiguration") :
    t.siftField p q x = if t.losesDefault q x.2 then none else some x := by
  rw [siftField, if_neg (by simp [h]), if_neg (by simp [h])]
  simp only [h, true_and]

theorem siftField_other (hoptions : x.1 ≠ "options") (hconfigurations : x.1 ≠ "configurations")
    (hdefault : x.1 ≠ "defaultConfiguration") : t.siftField p q x = some x := by
  simp [siftField, hoptions, hconfigurations, hdefault]

/-! ## The parts of a sifted target -/

/-- No configurations are left where there were none. -/
theorem siftedConfigurations_of_absent (h : t.hasConfigurations = false) :
    t.siftedConfigurations q = [] := by
  have hnone : t.fields.get? "configurations" = none := by
    simpa [hasConfigurations, OrderedMap.has] using h
  simp [siftedConfigurations, configurations?, membersField?, hnone]

theorem keepsKeys_siftField (t : Target) (p q : String × Json → Bool) :
    KeepsKeys (t.siftField p q) := by
  intro x y hxy
  unfold siftField at hxy
  split at hxy
  · exact keepsKeys_siftEntry p x y hxy
  · split at hxy
    · split at hxy
      · cases hxy
      · cases hxy
        rfl
    · split at hxy
      · cases hxy
      · cases hxy
        rfl

theorem fields_nodup (ht : t.toJson.Distinct) : t.fields.keys.Nodup :=
  Json.Distinct.keys ht

theorem distinct_members {key : String} (ht : t.toJson.Distinct)
    (h : t.membersField? key = some m) : (Json.object m).Distinct := by
  obtain ⟨v, hv, hm⟩ := Option.bind_eq_some_iff.mp h
  have hvalue : v.Distinct := Json.Distinct.value ht (OrderedMap.mem_of_get? hv)
  cases v with
  | object n => cases hm; exact hvalue
  | _ => cases hm

theorem siftedConfigurations_distinct (ht : t.toJson.Distinct) (q : String × Json → Bool) :
    (Json.object (t.siftedConfigurations q)).Distinct := by
  unfold siftedConfigurations
  cases h : t.configurations? with
  | none => exact Json.distinct_empty
  | some m =>
    exact (distinct_members ht h).filterMap (keepsKeys_siftEntry q)
      fun _ _ => distinct_of_siftEntry

/-- A sifted target holds no key twice either. -/
theorem distinct_sifted (ht : t.toJson.Distinct) (p q : String × Json → Bool) :
    (t.sifted p q).toJson.Distinct := by
  refine Json.Distinct.filterMap ht (keepsKeys_siftField t p q) fun x y hx hxy => ?_
  unfold siftField at hxy
  split at hxy
  · exact distinct_of_siftEntry hx hxy
  · split at hxy
    · split at hxy
      · cases hxy
      · cases hxy
        exact siftedConfigurations_distinct ht q
    · split at hxy
      · cases hxy
      · cases hxy
        exact hx

/-- What a field of a sifted target holds. -/
theorem get?_sifted (ht : t.toJson.Distinct) (key : String) :
    (t.sifted p q).fields.get? key =
      (t.fields.get? key).bind fun v => (t.siftField p q (key, v)).map Prod.snd :=
  OrderedMap.get?_filterMap (keepsKeys_siftField t p q) (fields_nodup ht) key

theorem options?_sifted (ht : t.toJson.Distinct) :
    (t.sifted p q).options? =
      t.options?.bind fun m => if (m.filter p).isEmpty then none else some (m.filter p) := by
  unfold options? membersField?
  rw [get?_sifted ht]
  cases t.fields.get? "options" with
  | none => rfl
  | some v =>
    cases v with
    | object m =>
      simp only [siftField, if_true, siftEntry_object, Option.bind_some, Json.members?]
      split
      · rfl
      · rfl
    | _ => rfl

theorem get?_configurations_sifted (ht : t.toJson.Distinct) :
    (t.sifted p q).fields.get? "configurations" =
      if (t.siftedConfigurations q).isEmpty then none
      else some (.object (t.siftedConfigurations q)) := by
  rw [get?_sifted ht]
  cases h : t.fields.get? "configurations" with
  | none =>
    have habsent : t.hasConfigurations = false := by simp [hasConfigurations, OrderedMap.has, h]
    simp [siftedConfigurations_of_absent habsent]
  | some v =>
    simp only [Option.bind_some, siftField, if_true]
    rw [if_neg (by decide)]
    split
    · rfl
    · rfl

theorem configurations?_sifted (ht : t.toJson.Distinct) :
    (t.sifted p q).configurations?.getD [] = t.siftedConfigurations q := by
  unfold configurations? membersField?
  rw [get?_configurations_sifted ht]
  split
  · next h => rw [List.isEmpty_iff.mp h]; rfl
  · rfl

theorem hasConfigurations_sifted (ht : t.toJson.Distinct) :
    (t.sifted p q).hasConfigurations = !(t.siftedConfigurations q).isEmpty := by
  unfold hasConfigurations OrderedMap.has
  rw [get?_configurations_sifted ht]
  by_cases h : (t.siftedConfigurations q).isEmpty = true
  · simp [h]
  · simp [h]

theorem configuration?_eq (t : Target) (name : String) :
    t.configuration? name = ((t.configurations?.getD []).get? name).bind Json.members? := by
  unfold configuration?
  cases t.configurations? with
  | none => rfl
  | some m => rfl

/-! ## Sifting twice -/

theorem siftedConfigurations_and (t : Target) (q q' : String × Json → Bool) :
    (t.siftedConfigurations fun x => q x && q' x) =
      (t.siftedConfigurations q).filterMap (siftEntry q') :=
  (filterMap_siftEntry _).symm

theorem siftedConfigurations_sifted (ht : t.toJson.Distinct) :
    (t.sifted p q).siftedConfigurations q' =
      t.siftedConfigurations fun x => q x && q' x := by
  rw [siftedConfigurations, configurations?_sifted ht, siftedConfigurations_and]

/-- A configuration that is gone stays gone when less is wanted. -/
theorem isNone_overrides_and (ht : t.toJson.Distinct)
    (h : (((t.siftedConfigurations q).get? name).bind Json.members?).isNone = true) :
    (((t.siftedConfigurations fun x => q x && q' x).get? name).bind
      Json.members?).isNone = true := by
  rw [siftedConfigurations_and, OrderedMap.get?_filterMap (keepsKeys_siftEntry q')
    (siftedConfigurations_distinct ht q).keys]
  cases hv : (t.siftedConfigurations q).get? name with
  | none => rfl
  | some v =>
    have hnone : v.members? = none := by simpa [hv] using h
    rw [Option.bind_some, siftEntry_of_members?_eq_none hnone]
    simp [hnone]

/-- The name of the default configuration goes the first time or the second time, or it
stays. -/
theorem losesDefault_sifted (ht : t.toJson.Distinct) (v : Json) :
    t.losesDefault (fun x => q x && q' x) v =
      (t.losesDefault q v || (t.sifted p q).losesDefault q' v) := by
  have habsent (h : t.hasConfigurations = false) :
      (t.siftedConfigurations q).isEmpty = true := by
    rw [siftedConfigurations_of_absent h]
    rfl
  have hempty (h : (t.siftedConfigurations q).isEmpty = true) :
      (t.siftedConfigurations fun x => q x && q' x).isEmpty = true := by
    rw [siftedConfigurations_and, List.isEmpty_iff.mp h]
    rfl
  unfold losesDefault
  rw [hasConfigurations_sifted ht, siftedConfigurations_sifted ht]
  cases v with
  | string name =>
    have hgone := @isNone_overrides_and t q q' name ht
    grind
  | _ => grind

/-- What is left of a field that is sifted twice. -/
theorem siftField_bind (ht : t.toJson.Distinct) (x : String × Json) :
    (t.siftField p q x).bind ((t.sifted p q).siftField p' q') =
      t.siftField (fun x => p x && p' x) (fun x => q x && q' x) x := by
  by_cases hoptions : x.1 = "options"
  · rw [siftField_options hoptions, siftField_options hoptions, ← siftEntry_bind]
    apply Option.bind_congr
    intro y hy
    rw [siftField_options ((keepsKeys_siftEntry p x y hy).trans hoptions)]
  by_cases hconfigurations : x.1 = "configurations"
  · rw [siftField_configurations hconfigurations, siftField_configurations hconfigurations]
    by_cases hempty : (t.siftedConfigurations q).isEmpty = true
    · rw [if_pos hempty, siftedConfigurations_and, List.isEmpty_iff.mp hempty]
      rfl
    · have hkey : (x.1, Json.object (t.siftedConfigurations q)).1 = "configurations" :=
        hconfigurations
      rw [if_neg hempty, Option.bind_some, siftField_configurations hkey,
        siftedConfigurations_sifted ht]
  by_cases hdefault : x.1 = "defaultConfiguration"
  · rw [siftField_default hdefault, siftField_default hdefault,
      losesDefault_sifted (p := p) ht]
    by_cases hloses : t.losesDefault q x.2 = true
    · simp [hloses]
    · simp [hloses, siftField_default hdefault]
  · rw [siftField_other hoptions hconfigurations hdefault,
      siftField_other hoptions hconfigurations hdefault, Option.bind_some,
      siftField_other hoptions hconfigurations hdefault]

/-- Sifting twice is sifting for what is wanted both times. -/
theorem sifted_sifted (ht : t.toJson.Distinct) :
    (t.sifted p q).sifted p' q' =
      t.sifted (fun x => p x && p' x) (fun x => q x && q' x) := by
  refine congrArg Target.mk ?_
  calc (t.fields.filterMap (t.siftField p q)).filterMap ((t.sifted p q).siftField p' q')
      = t.fields.filterMap
          fun x => (t.siftField p q x).bind ((t.sifted p q).siftField p' q') :=
        List.filterMap_filterMap
    _ = t.fields.filterMap
          (t.siftField (fun x => p x && p' x) fun x => q x && q' x) :=
        List.filterMap_congr fun x _ => siftField_bind ht x

/-! ## Tidy targets -/

/-- A target without empty options or empty configurations, with configurations only if
there are some, and with no default configuration by a name that none has. -/
structure Tidy (t : Target) : Prop where
  options : t.options? ≠ some []
  configurations : ∀ v, t.fields.get? "configurations" = some v →
    ∃ m, v = .object m ∧ m ≠ [] ∧ ∀ x ∈ m, x.2 ≠ .object []
  default : ∀ name, t.defaultConfiguration? = some name → (t.configuration? name).isSome

/-- What sifting leaves is tidy. -/
theorem tidy_sifted (ht : t.toJson.Distinct) : (t.sifted p q).Tidy where
  options := by
    rw [options?_sifted ht]
    cases t.options? with
    | none => simp
    | some m =>
      rw [Option.bind_some]
      split
      · simp
      · next hne => simpa using hne
  configurations v hv := by
    rw [get?_configurations_sifted ht] at hv
    split at hv
    · cases hv
    · next hne =>
      cases hv
      refine ⟨_, rfl, by simpa using hne, fun y hy => ?_⟩
      obtain ⟨x, -, hxy⟩ := List.mem_filterMap.mp hy
      exact siftEntry_ne hxy
  default name hname := by
    obtain ⟨v, hv, hstring⟩ := Option.bind_eq_some_iff.mp hname
    rw [get?_sifted ht] at hv
    obtain ⟨w, -, hw⟩ := Option.bind_eq_some_iff.mp hv
    rw [siftField_default rfl] at hw
    split at hw
    · cases hw
    · next hstays =>
      cases hw
      cases w with
      | string s =>
        cases hstring
        rw [configuration?_eq, configurations?_sifted ht]
        have hleft : (((t.siftedConfigurations q).get? name).bind Json.members?).isNone = false :=
          (Bool.or_eq_false_iff.mp (Bool.not_eq_true _ ▸ hstays)).2
        simpa using hleft
      | _ => cases hstring

theorem Tidy.siftedConfigurations_eq (h : t.Tidy) :
    t.siftedConfigurations (fun _ => true) = t.configurations?.getD [] := by
  unfold siftedConfigurations
  cases hm : t.configurations? with
  | none => rfl
  | some m =>
    obtain ⟨v, hv, hmembers⟩ := Option.bind_eq_some_iff.mp hm
    obtain ⟨n, rfl, -, hall⟩ := h.configurations v hv
    cases hmembers
    calc m.filterMap (siftEntry fun _ => true)
        = m.filterMap some :=
          List.filterMap_congr fun x hx => siftEntry_of_wanted (hall x hx) fun _ _ _ _ => rfl
      _ = m := List.filterMap_some

theorem Tidy.losesDefault_eq (h : t.Tidy) {v : Json}
    (hv : t.fields.get? "defaultConfiguration" = some v) :
    t.losesDefault (fun _ => true) v = false := by
  have hthere (hhas : t.hasConfigurations = true) :
      (t.configurations?.getD []).isEmpty = false := by
    obtain ⟨w, hw⟩ := Option.isSome_iff_exists.mp hhas
    obtain ⟨m, rfl, hne, -⟩ := h.configurations w hw
    simpa [configurations?, membersField?, hw, Json.members?] using hne
  unfold losesDefault
  rw [h.siftedConfigurations_eq, Bool.or_eq_false_iff]
  constructor
  · cases hhas : t.hasConfigurations with
    | false => rfl
    | true => exact hthere hhas
  · cases v with
    | string name =>
      have hname : t.defaultConfiguration? = some name := by
        rw [defaultConfiguration?, stringField?, hv]
        rfl
      have hsome := h.default name hname
      rw [configuration?_eq] at hsome
      simpa using hsome
    | _ => rfl

/-- A tidy target of which everything is wanted stays as it is. -/
theorem Tidy.sifted_eq (h : t.Tidy) (ht : t.toJson.Distinct) :
    t.sifted (fun _ => true) (fun _ => true) = t := by
  have hsame : ∀ x ∈ t.fields, t.siftField (fun _ => true) (fun _ => true) x = some x := by
    intro x hx
    have hget : t.fields.get? x.1 = some x.2 := OrderedMap.get?_of_mem (fields_nodup ht) hx
    by_cases hoptions : x.1 = "options"
    · rw [siftField_options hoptions]
      refine siftEntry_of_wanted (fun hempty => h.options ?_) fun _ _ _ _ => rfl
      rw [options?, membersField?, ← hoptions, hget, hempty]
      rfl
    by_cases hconfigurations : x.1 = "configurations"
    · rw [hconfigurations] at hget
      obtain ⟨m, hm, hne, -⟩ := h.configurations x.2 hget
      rw [siftField_configurations hconfigurations, h.siftedConfigurations_eq, configurations?,
        membersField?, hget, hm]
      rw [Option.bind_some, Json.members?, Option.getD_some, if_neg (by simpa using hne), ← hm]
    by_cases hdefault : x.1 = "defaultConfiguration"
    · rw [siftField_default hdefault, h.losesDefault_eq (hdefault ▸ hget), if_neg (by simp)]
    · exact siftField_other hoptions hconfigurations hdefault
  refine congrArg Target.mk ?_
  rw [List.filterMap_congr hsame, List.filterMap_some]

end Target

end Retarget
