import Retarget.Proofs.Target.Reducing
import Retarget.Proofs.Target.Tidying

/-!
# What transforming a target comes to

`Reduction.transform` strips the default options, then one configuration after the other,
and tidies what is left.  Each step reads what the steps before it have left.
`Reduction.transform_spec` says what comes of it in terms of the target as it was at
first: the target is sifted for the options and overrides that stay, and every part gives
its notices, the default options first.
-/

namespace Retarget

namespace Reduction

open Target

variable {r : Reduction} {t u : Target} {place : Option Location} {o : Members}
  {name : String}

/-! ## What stays -/

/-- Whether an option goes wherever it stands. -/
def drops (r : Reduction) (key : String) : Bool :=
  r.implied.contains key || r.deprecated.has key

/-- Whether a value is the path of a place. -/
def isPathOf (place : Option Location) : Json → Bool
  | .string p => place = some (Path.mk p).location
  | _ => false

/-- Whether an override names the old config that was migrated. -/
def releases (r : Reduction) (place : Option Location) (x : String × Json) : Bool :=
  r.legacyKey = some x.1 && isPathOf place x.2

/-- Whether a default option stays. -/
def keepsOption (r : Reduction) (x : String × Json) : Bool :=
  !r.drops x.1 && !decide (r.legacyKey = some x.1)

/-- Whether an override stays. -/
def keepsOverride (r : Reduction) (place : Option Location) (x : String × Json) : Bool :=
  !r.drops x.1 && !r.releases place x

/-! ## What is given notice of -/

/-- The path of an old config as it is told. -/
def pathText : Json → String
  | .string p => p
  | v => v.compact

/-- The path of the old config that overrides name, unless it was migrated. -/
def keptPath? (r : Reduction) (place : Option Location) (o : Members) : Option String :=
  (r.legacyKey.bind o.get?).bind fun v =>
    if isPathOf place v then .none else some (pathText v)

/-- What a configuration gives notice of: an old config that stays, then every override
without a counterpart. -/
def overrideNotices (r : Reduction) (place : Option Location) (x : String × Json) :
    List Notice :=
  match x.2 with
  | .object o => ((r.keptPath? place o).map (.kept x.1)).toList ++
      (r.warningsFor (o.filter fun y => !r.releases place y)).map .dropped
  | _ => []

/-- What a target gives notice of: the default options first, then every configuration. -/
def notices (r : Reduction) (t : Target) : List Notice :=
  (r.warningsFor (t.options?.getD [])).map .dropped ++
    (t.configurations?.getD []).flatMap (r.overrideNotices (r.legacyPlace? t))

/-! ## The steps -/

theorem stripped_eq (r : Reduction) (o : Members) :
    r.stripped o = o.filter fun x => !r.drops x.1 := by
  rw [stripped, OrderedMap.foldl_remove, OrderedMap.foldl_remove, List.filter_filter]
  apply List.filter_congr
  intro x _
  have hdeprecated : (r.deprecated.map Prod.fst).contains x.1 = r.deprecated.has x.1 := by
    rw [Bool.eq_iff_iff, OrderedMap.has_iff_mem_keys, List.contains_iff_mem]
    rfl
  rw [hdeprecated, drops, Bool.not_or]

/-- Stripped default options are sifted. -/
theorem stripBase_eq (ht : t.toJson.Distinct) :
    (r.stripBase t).1 = ⟨t.fields.adjust "options" (siftEntry r.keepsOption)⟩ := by
  rw [adjust_siftEntry (fields_nodup ht), stripBase]
  rw [show (t.fields.get? "options").bind Json.members? = t.options? from rfl]
  cases h : t.options? with
  | none => rfl
  | some o =>
    cases hkey : r.legacyKey with
    | none =>
      have hleft : r.stripped o = o.filter r.keepsOption := by
        rw [stripped_eq]
        exact List.filter_congr fun x _ => by simp [keepsOption, hkey]
      simp only [strip, hleft]
      split
      · rfl
      · rfl
    | some key =>
      have hleft : (r.stripped o).remove key = o.filter r.keepsOption := by
        rw [stripped_eq, OrderedMap.remove, List.filter_filter]
        refine List.filter_congr fun x _ => ?_
        simp [keepsOption, hkey, Bool.and_comm, eq_comm]
      simp only [strip, hleft]
      split
      · rfl
      · rfl

theorem baseNotices_eq (r : Reduction) (t : Target) :
    r.baseNotices t = (r.warningsFor (t.options?.getD [])).map .dropped := by
  rw [baseNotices, stripBase]
  cases t.options? with
  | none => simp [warningsFor, OrderedMap.has, OrderedMap.get?]
  | some o => rfl

theorem releaseOverride_of_none (h : t.configuration? name = .none) :
    r.releaseOverride t name place = (t, .none) := by
  rw [releaseOverride, h]
  split
  · next hsome => cases hsome
  · rfl

theorem filter_releases_of_path {key : String} {v : Json} (ho : o.keys.Nodup)
    (hkey : r.legacyKey = some key) (hv : o.get? key = some v) (hpath : isPathOf place v = true) :
    o.filter (fun y => !r.releases place y) = o.remove key := by
  apply List.filter_congr
  intro x hx
  by_cases hx' : x.1 = key
  · have hvalue : x.2 = v := by
      have hget : o.get? x.1 = some x.2 := OrderedMap.get?_of_mem ho hx
      exact Option.some.inj (hget.symm.trans (hx' ▸ hv))
    simp [releases, hkey, hx', hvalue, hpath]
  · simp [releases, hkey, hx', Ne.symm hx']

theorem filter_releases_of_kept (ho : o.keys.Nodup)
    (h : ∀ v, r.legacyKey.bind o.get? = some v → isPathOf place v = false) :
    o.filter (fun y => !r.releases place y) = o := by
  refine List.filter_eq_self.mpr fun x hx => ?_
  by_cases hkey : r.legacyKey = some x.1
  · have hvalue : r.legacyKey.bind o.get? = some x.2 := by
      rw [hkey]
      exact OrderedMap.get?_of_mem ho hx
    simp [releases, h x.2 hvalue]
  · simp [releases, hkey]

theorem releaseOverride_eq {key : String} {v : Json} (hkey : r.legacyKey = some key)
    (h : t.configuration? name = some o) (hv : o.get? key = some v) :
    r.releaseOverride t name place =
      if isPathOf place v then (t.setConfiguration name (o.remove key), .none)
      else (t, some (pathText v)) := by
  rw [releaseOverride, hkey, h]
  dsimp only
  rw [hv]
  cases v with
  | string p =>
    cases place with
    | none => rfl
    | some m => simp [isPathOf, pathText, eq_comm]
  | _ => rfl

/-- Releasing the old config of a configuration leaves the overrides that are no path of
what was migrated. -/
theorem releaseOverride_of_some (ho : o.keys.Nodup) (h : t.configuration? name = some o) :
    r.releaseOverride t name place =
      (t.setConfiguration name (o.filter fun y => !r.releases place y), r.keptPath? place o) := by
  have hkept (h' : ∀ v, r.legacyKey.bind o.get? = some v → isPathOf place v = false) :
      t.setConfiguration name (o.filter fun y => !r.releases place y) = t := by
    rw [filter_releases_of_kept ho h', setConfiguration_self h]
  cases hkey : r.legacyKey with
  | none =>
    rw [hkept (by simp [hkey])]
    simp [releaseOverride, keptPath?, hkey]
  | some key =>
    cases hv : o.get? key with
    | none =>
      rw [hkept (by simp [hkey, hv])]
      simp [releaseOverride, keptPath?, hkey, h, hv]
    | some v =>
      rw [releaseOverride_eq hkey h hv, keptPath?, hkey, Option.bind_some, hv, Option.bind_some]
      by_cases hpath : isPathOf place v = true
      · rw [if_pos hpath, if_pos hpath, filter_releases_of_path ho hkey hv hpath]
      · rw [if_neg hpath, if_neg hpath, hkept]
        intro w hw
        rw [hkey, Option.bind_some, hv] at hw
        cases hw
        exact (Bool.not_eq_true _).mp hpath

/-- What reducing one configuration comes to. -/
theorem variantReduced_eq (ht : t.toJson.Distinct) (name : String) :
    r.variantReduced t place name = t.siftConfiguration (r.keepsOverride place) name := by
  rw [variantReduced]
  cases h : t.configuration? name with
  | none =>
    rw [releaseOverride_of_none h, stripVariant, h, siftConfiguration_of_none ht h]
  | some o =>
    have hleft : r.stripped (o.filter fun y => !r.releases place y) =
        o.filter (r.keepsOverride place) := by
      rw [stripped_eq, List.filter_filter]
      rfl
    rw [releaseOverride_of_some (distinct_overrides ht h).keys h, stripVariant,
      configuration?_setConfiguration h]
    dsimp only [strip]
    rw [hleft, siftConfiguration_of_some ht h]
    split
    · exact removeConfiguration_setConfiguration h _
    · exact setConfiguration_setConfiguration h _ _

theorem variantNotices_of_none (h : t.configuration? name = .none) :
    r.variantNotices t place name = [] := by
  rw [variantNotices, releaseOverride_of_none h, stripVariant, h]
  rfl

theorem variantNotices_of_some (ht : t.toJson.Distinct) (h : t.configuration? name = some o) :
    r.variantNotices t place name = r.overrideNotices place (name, .object o) := by
  rw [variantNotices, releaseOverride_of_some (distinct_overrides ht h).keys h, stripVariant,
    configuration?_setConfiguration h]
  rfl

/-! ## The loop -/

theorem variantNotices_congr (ht : t.toJson.Distinct) (hu : u.toJson.Distinct)
    (h : u.configuration? name = t.configuration? name) :
    r.variantNotices u place name = r.variantNotices t place name := by
  cases ho : t.configuration? name with
  | none => rw [variantNotices_of_none (h.trans ho), variantNotices_of_none ho]
  | some o => rw [variantNotices_of_some hu (h.trans ho), variantNotices_of_some ht ho]

/-- A configuration gives notice of the overrides that it had at first, since reducing the
others does not touch them. -/
theorem foldl_noticing_eq {names : List String} (hnames : names.Nodup)
    (hu : u.toJson.Distinct) :
    names.foldl (r.noticing place) (u, []) =
      (names.foldl (fun u name => r.variantReduced u place name) u,
        names.flatMap (r.variantNotices u place)) := by
  induction names generalizing u with
  | nil => rfl
  | cons name names ih =>
    obtain ⟨hname, hnames⟩ := List.nodup_cons.mp hnames
    have hstep : (r.variantReduced u place name).toJson.Distinct := by
      rw [variantReduced_eq hu]
      exact distinct_siftConfiguration hu
    have hothers : names.flatMap (r.variantNotices (r.variantReduced u place name) place) =
        names.flatMap (r.variantNotices u place) := by
      refine List.flatMap_congr fun other hother => variantNotices_congr hu hstep ?_
      rw [variantReduced_eq hu]
      apply configuration?_siftConfiguration_of_ne hu
      rintro rfl
      exact hname hother
    rw [List.foldl_cons, noticing, foldl_noticing, ih hnames hstep, hothers]
    rfl

theorem flatMap_variantNotices (ht : t.toJson.Distinct) :
    t.configurationNames.flatMap (r.variantNotices t place) =
      (t.configurations?.getD []).flatMap (r.overrideNotices place) := by
  rw [configurationNames, List.flatMap_map]
  apply List.flatMap_congr
  intro x hx
  cases hm : t.configurations? with
  | none => simp [hm] at hx
  | some m =>
    rw [hm, Option.getD_some] at hx
    have hvalue : t.configuration? x.1 = x.2.members? := by
      have hget : m.get? x.1 = some x.2 :=
        OrderedMap.get?_of_mem (distinct_members ht hm).keys hx
      rw [configuration?, hm, Option.bind_some, hget, Option.bind_some]
    obtain ⟨name, v⟩ := x
    cases v with
    | object o => exact variantNotices_of_some ht hvalue
    | _ => exact variantNotices_of_none hvalue

/-- Reducing a target prunes it, and gives notice of its parts as they were at first. -/
theorem reduced_eq (ht : t.toJson.Distinct) :
    r.reduced t = (t.pruned r.keepsOption (r.keepsOverride (r.legacyPlace? t)), r.notices t) := by
  have hbase : (r.stripBase t).1.toJson.Distinct := by
    rw [stripBase_eq ht]
    exact distinct_adjust_options ht _
  have hconfigurations := r.configurations?_stripBase t
  have hnames : t.configurationNames = (r.stripBase t).1.configurationNames := by
    rw [configurationNames, configurationNames, hconfigurations]
  have hnodup : t.configurationNames.Nodup := by
    rw [configurationNames]
    cases hm : t.configurations? with
    | none => exact .nil
    | some m => exact (distinct_members ht hm).keys
  rw [reduced, foldl_noticing, foldl_noticing_eq hnodup hbase, hnames,
    flatMap_variantNotices hbase, hconfigurations, baseNotices_eq,
    foldl_siftConfiguration hbase _ fun u name hu => variantReduced_eq hu name,
    stripBase_eq ht, pruned_eq ht]
  rfl

/-- Transforming a target sifts it for what stays, and tells what it gives notice of. -/
theorem transform_spec (r : Reduction) (t : Target) (ht : t.toJson.Distinct) :
    r.transform t =
      (t.sifted r.keepsOption (r.keepsOverride (r.legacyPlace? t)),
        (r.notices t).map Notice.text) := by
  rw [transform_eq, reduced_eq ht, tidy_pruned ht]

/-- Takes out an option that the plugin supplies, one without a counterpart, and the old
config. -/
def webpacked : Reduction :=
  ⟨some "config", ["out"], [("proxy", "Copy the proxy.")]⟩

/-- A target with two configurations that name an old config: the one that is migrated,
and another one. -/
def served : Target :=
  ⟨[("options", .object [("config", .string "a/w.js"), ("proxy", .string "a/p.js")]),
    ("configurations", .object [
      ("production", .object [("config", .string "./a/w.js"), ("out", .string "dist")]),
      ("ci", .object [("proxy", .null), ("config", .string "a/ci.js")])]),
    ("defaultConfiguration", .string "production"), ("cache", .bool true)]⟩

theorem distinct_served : served.toJson.Distinct := by
  simp [served, Target.toJson, Json.distinct_object_iff, OrderedMap.keys, Json.Distinct.null,
    Json.Distinct.bool, Json.Distinct.string]

theorem transform_spec_served :
    served.toJson.Distinct ∧ (webpacked.transform served).1.fields =
        [("configurations", .object [("ci", .object [("config", .string "a/ci.js")])]),
          ("cache", .bool true)] ∧
      (webpacked.transform served).2 =
        ["Copy the proxy.", unmergedOverride "ci" "a/ci.js", "Copy the proxy."] := by
  rw [transform_spec webpacked served distinct_served]
  exact ⟨distinct_served, by decide +kernel⟩

/-! ## Transforming twice -/

/-- Options that stay wherever they stand give no notice. -/
theorem warningsFor_eq_nil (h : ∀ x ∈ o, r.drops x.1 = false) : r.warningsFor o = [] := by
  rw [warningsFor, List.map_eq_nil_iff, List.filter_eq_nil_iff]
  intro d hd hhas
  obtain ⟨v, hv⟩ := Option.isSome_iff_exists.mp hhas
  have hkept := h _ (OrderedMap.mem_of_get? hv)
  rw [drops, Bool.or_eq_false_iff] at hkept
  exact Bool.false_ne_true (hkept.2.symm.trans (OrderedMap.has_of_mem hd))

/-- Of options that stay none names an old config. -/
theorem legacyPlace?_sifted (ht : t.toJson.Distinct) (q : String × Json → Bool) :
    r.legacyPlace? (t.sifted r.keepsOption q) = .none := by
  rw [legacyPlace?, legacyConfig?]
  cases hkey : r.legacyKey with
  | none => rfl
  | some key =>
    have hdropped (v : Json) : r.keepsOption (key, v) = false := by simp [keepsOption, hkey]
    rw [Option.bind_some, optionString?, options?_sifted ht]
    cases ho : t.options? with
    | none => rfl
    | some o =>
      rw [Option.bind_some]
      split
      · rfl
      · rw [Option.bind_some, OrderedMap.get?_filter (distinct_members ht ho).keys]
        cases o.get? key with
        | none => rfl
        | some v => simp [Option.filter, hdropped]

/-- What is told about a configuration that has an old config. -/
def unmerged? (r : Reduction) (x : String × Json) : Option String :=
  (x.2.members?.bind fun o => r.legacyKey.bind o.get?).map fun v =>
    unmergedOverride x.1 (pathText v)

theorem isPathOf_none (v : Json) : isPathOf .none v = false := by
  cases v with
  | string p => rfl
  | _ => rfl

theorem keptPath?_none (r : Reduction) (o : Members) :
    r.keptPath? .none o = (r.legacyKey.bind o.get?).map pathText := by
  rw [keptPath?]
  simp only [isPathOf_none, Bool.false_eq_true, if_false]
  exact (Option.map_eq_bind ..).symm

/-- With no old config migrated, overrides that stay only give notice of old configs. -/
theorem text_overrideNotices {x : String × Json}
    (h : ∀ o, x.2 = .object o → ∀ y ∈ o, r.drops y.1 = false) :
    (r.overrideNotices .none x).map Notice.text = (r.unmerged? x).toList := by
  obtain ⟨name, v⟩ := x
  cases v with
  | object o =>
    have hkept : ∀ y ∈ o.filter fun y => !r.releases .none y, r.drops y.1 = false :=
      fun y hy => h o rfl y (List.mem_of_mem_filter hy)
    have hnotices : r.overrideNotices .none (name, .object o) =
        ((r.keptPath? .none o).map (.kept name)).toList := by
      rw [overrideNotices]
      dsimp only
      rw [warningsFor_eq_nil hkept, List.map_nil, List.append_nil]
    rw [hnotices, keptPath?_none, unmerged?, Option.map_map, ← Option.toList_map,
      Option.map_map]
    rfl
  | _ => rfl

/-- A sifted target only tells of the old configs that its configurations still have. -/
theorem text_notices_sifted (ht : t.toJson.Distinct) :
    (r.notices (t.sifted r.keepsOption (r.keepsOverride place))).map Notice.text =
      ((t.sifted r.keepsOption (r.keepsOverride place)).configurations?.getD []).filterMap
        r.unmerged? := by
  have hoptions : r.warningsFor ((t.sifted r.keepsOption (r.keepsOverride place)).options?.getD [])
      = [] := by
    apply warningsFor_eq_nil
    intro x hx
    rw [options?_sifted ht] at hx
    cases ho : t.options? with
    | none => simp [ho] at hx
    | some o =>
      rw [ho, Option.bind_some] at hx
      split at hx
      · simp at hx
      · have hwanted := List.of_mem_filter hx
        rw [keepsOption, Bool.and_eq_true_iff] at hwanted
        simpa using hwanted.1
  have hoverrides : ∀ x ∈ t.siftedConfigurations (r.keepsOverride place),
      (r.overrideNotices .none x).map Notice.text = (r.unmerged? x).toList := by
    intro x hx
    obtain ⟨y, -, hyx⟩ := List.mem_filterMap.mp hx
    refine text_overrideNotices fun o ho z hz => ?_
    have hwanted := wanted_of_siftEntry hyx ho z hz
    rw [keepsOverride, Bool.and_eq_true_iff] at hwanted
    simpa using hwanted.1
  rw [notices, hoptions, legacyPlace?_sifted ht, configurations?_sifted ht, List.map_nil,
    List.nil_append, List.map_flatMap, List.flatMap_congr hoverrides,
    List.filterMap_eq_flatMap_toList]

/-- Transforming a target once more changes nothing.  It only tells again of every
configuration that has an old config. -/
theorem transform_transform (r : Reduction) (t : Target) (ht : t.toJson.Distinct) :
    r.transform (r.transform t).1 =
      ((r.transform t).1, ((r.transform t).1.configurations?.getD []).filterMap r.unmerged?) := by
  have honce : (r.transform t).1 = t.sifted r.keepsOption (r.keepsOverride (r.legacyPlace? t)) := by
    rw [transform_spec r t ht]
  have hoption : (fun x => r.keepsOption x && r.keepsOption x) = r.keepsOption := by
    funext x
    exact Bool.and_self _
  have hoverride : (fun x => r.keepsOverride (r.legacyPlace? t) x && r.keepsOverride .none x) =
      r.keepsOverride (r.legacyPlace? t) := by
    funext x
    have hnone : r.releases .none x = false := by simp [releases, isPathOf_none]
    simp only [keepsOverride, hnone, Bool.not_false, Bool.and_true]
    grind
  rw [honce, transform_spec r _ (distinct_sifted ht _ _), text_notices_sifted ht,
    legacyPlace?_sifted ht, sifted_sifted ht, hoption, hoverride]

theorem transform_transform_served :
    served.toJson.Distinct ∧ webpacked.transform (webpacked.transform served).1 =
      ((webpacked.transform served).1, [unmergedOverride "ci" "a/ci.js"]) := by
  rw [transform_transform webpacked served distinct_served]
  refine ⟨distinct_served, congrArg (Prod.mk (webpacked.transform served).1) ?_⟩
  decide +kernel

end Reduction

end Retarget
