import Retarget.Proofs.Migration.Outcome
import Retarget.Proofs.Staging.Alike

/-!
# Migrating on stagings alike

The migration of a project asks a staging what is at the paths that it can get to, and
stages operations on these paths.  On stagings that show the same there it therefore does
the same, whatever else they hold.  Of the migration only the profile matters.

If nothing but the notes tells two stagings apart, nothing else does afterwards.
-/

namespace Retarget

/-- Counts can be added in any order. -/
theorem LineCount.add_right_comm (a b c : LineCount) : (a.add b).add c = (a.add c).add b := by
  simp only [add, Nat.add_right_comm]

namespace Migration

open Staging (Alike AlikeRun Agree AgreeRun)

variable {m n : Migration} {p : Project} {t u : Staging} {w : Work} {S : Location → Prop}
  {config : Location}

/-! ## Stagings that show the same -/

theorem classify_congr (h : Alike S t u) (b : Unit_) {target : Target}
    (hS : ∀ c, m.oldConfig? target = some c → S c) :
    m.classify t b target = m.classify u b target := by
  unfold classify
  split
  · rfl
  · next hexec =>
    split
    · rfl
    · split
      · rfl
      · next key hkey =>
        split
        · rfl
        · next path hpath =>
          split
          · rfl
          · next hne =>
            have hold : m.oldConfig? target = some (Path.mk path).location := by
              have hexec : target.executor? = some m.profile.executor := by simpa using hexec
              simp [oldConfig?, hexec, Reduction.legacyConfig?, Profile.reduction, hkey, hpath,
                Option.filter, hne]
            rw [h.exists_ _ (hS _ hold)]

theorem extract_congr (h : Alike S t u) (hc : config.WellSpelled) (hS : S config)
    (p : Project) : m.extract t p config = m.extract u p config := by
  have hread : t.read config.path.location = u.read config.path.location := by
    rw [Location.location_path hc]
    exact h.read config hS
  simp only [extract, Extraction.ofFile, hread]

theorem synthesize_congr (h : Alike S t u) (hc : config.WellSpelled) (hS : S config)
    (hS' : S (m.archive config)) (e : Extracted) :
    AlikeRun S t u (m.profile.config.synthesize t config.path e)
      (m.profile.config.synthesize u config.path e) := by
  have hfree := h.exists_ _ hS'
  have hr := h.rename hS hS'
  unfold archive at hfree hr
  unfold PluginConfig.synthesize
  dsimp only
  rw [Location.location_path hc, hfree]
  split
  · exact .of_alike h _
  · split
    · exact .of_alike h _
    · generalize t.rename config (m.profile.config.archivePath config.path).location = rt at hr
      generalize u.rename config (m.profile.config.archivePath config.path).location = ru at hr
      obtain ⟨t', r⟩ := rt
      obtain ⟨u', r'⟩ := ru
      obtain ⟨h', rfl, hlog⟩ := hr
      refine .trans hlog ?_
      cases r with
      | error f => exact .of_alike h' _
      | ok _ =>
        have hw := Alike.write h' hS (m.profile.config.render e).1
        dsimp only at hw ⊢
        generalize t'.write config (m.profile.config.render e).1 = wt at hw
        generalize u'.write config (m.profile.config.render e).1 = wu at hw
        cases hw with
        | error f => exact .of_alike h' _
        | ok h'' hlog => exact .trans hlog (.of_alike h'' _)

theorem replaceConfig_congr (h : Alike S t u) (hc : config.WellSpelled) (hS : S config)
    (hS' : S (m.archive config)) (w : Work) :
    AlikeRun S t u (m.replaceConfig t w config) (m.replaceConfig u w config) := by
  unfold replaceConfig
  rw [extract_congr h hc hS]
  split
  · exact .of_alike h _
  · split
    · exact .of_alike h _
    · next e messages _ =>
      have hs := synthesize_congr h hc hS hS' e
      dsimp only
      generalize m.profile.config.synthesize t config.path e = rt at hs
      generalize m.profile.config.synthesize u config.path e = ru at hs
      obtain ⟨t', r⟩ := rt
      obtain ⟨u', r'⟩ := ru
      obtain ⟨h', rfl, hlog⟩ := hs
      refine .trans hlog ?_
      cases r with
      | error f => exact .of_alike h' _
      | ok s => exact .of_alike h' _

theorem migrateUnit_congr (h : Alike (· ∈ m.reach p) t u) (hw : m.Tracks p w) (b : Unit_) :
    AlikeRun (· ∈ m.reach p) t u (m.migrateUnit t w b) (m.migrateUnit u w b) := by
  unfold migrateUnit
  split
  · exact .of_alike h _
  · next target htarget =>
    have hnamed := hw.named _ _ htarget
    rw [classify_congr h b fun c hc => config_mem_reach (hnamed c hc)]
    split
    · exact .of_alike h _
    · exact .of_alike h _
    · split
      · exact .of_alike h _
      · exact .of_alike h _
    · exact .of_alike h _
    · next config hclass =>
      obtain ⟨hold, -, hc⟩ := classify_migratable hclass
      have hmem := hnamed config hold
      have hr := replaceConfig_congr h hc (config_mem_reach hmem) (archive_mem_reach hmem) w
      generalize m.replaceConfig t w config = rt at hr
      generalize m.replaceConfig u w config = ru at hr
      obtain ⟨t', r⟩ := rt
      obtain ⟨u', r'⟩ := ru
      obtain ⟨h', rfl, hlog⟩ := hr
      refine .trans hlog ?_
      cases r with
      | error f => exact .of_alike h' _
      | ok w' => exact .of_alike h' _

theorem migrateUnits_congr (h : Alike (· ∈ m.reach p) t u) (hw : m.Tracks p w)
    (us : List Unit_) :
    AlikeRun (· ∈ m.reach p) t u (m.migrateUnits t w us) (m.migrateUnits u w us) := by
  induction us generalizing t u w with
  | nil => exact .of_alike h _
  | cons b us ih =>
    have hb := migrateUnit_congr h hw b
    unfold migrateUnits
    generalize ht : m.migrateUnit t w b = rt at hb
    generalize m.migrateUnit u w b = ru at hb
    obtain ⟨t', r⟩ := rt
    obtain ⟨u', r'⟩ := ru
    obtain ⟨h', rfl, hlog⟩ := hb
    refine .trans hlog ?_
    cases r with
    | error f => exact .of_alike h' _
    | ok w' => exact ih h' (hw.migrateUnit ht)

/-- Preparing a project does the same on stagings that show the same where it can get. -/
theorem prepare_congr (h : Alike (· ∈ m.reach p) t u) (us : List Unit_) :
    AlikeRun (· ∈ m.reach p) t u (m.prepare t p us) (m.prepare u p us) := by
  have hb := migrateUnits_congr h (tracks_start m p) us
  unfold prepare
  generalize ht : m.migrateUnits t (.start p) us = rt at hb
  generalize m.migrateUnits u (.start p) us = ru at hb
  obtain ⟨t', r⟩ := rt
  obtain ⟨u', r'⟩ := ru
  obtain ⟨h', rfl, hlog⟩ := hb
  refine .trans hlog ?_
  cases r with
  | error f => exact .of_alike h' _
  | ok w =>
    dsimp only at h' ⊢
    have hpath : (settle w).configPath = p.configPath :=
      (settle_apart w).2.trans ((tracks_start m p).migrateUnits ht).configPath
    rw [hpath]
    split
    · exact .of_alike h' _
    · have hs := h'.write configPath_mem_reach (settle w).toText
      generalize t'.write p.configPath.location (settle w).toText = st at hs
      generalize u'.write p.configPath.location (settle w).toText = su at hs
      cases hs with
      | error f => exact .of_alike h' _
      | ok h'' hlog => exact .trans hlog (.of_alike h'' _)

/-! ## Migrations of one profile -/

theorem migrateUnits_of_profile (h : m.profile = n.profile) (t : Staging) (w : Work)
    (us : List Unit_) : m.migrateUnits t w us = n.migrateUnits t w us := by
  have hunit : m.migrateUnit = n.migrateUnit := by
    obtain ⟨profile, project, dryRun⟩ := m
    obtain ⟨profile', project', dryRun'⟩ := n
    obtain rfl : profile = profile' := h
    rfl
  induction us generalizing t w with
  | nil => rfl
  | cons b us ih =>
    rw [migrateUnits, migrateUnits, hunit]
    simp only [ih]

/-- Of a migration only the profile matters for the work on a project. -/
theorem prepare_of_profile (h : m.profile = n.profile) (t : Staging) (p : Project)
    (us : List Unit_) : m.prepare t p us = n.prepare t p us := by
  unfold prepare
  rw [migrateUnits_of_profile h]

/-! ## Stagings in agreement -/

/-- The lines that are counted depend on what was changed, in any order. -/
theorem countChanges_congr (ht : t.Coherent) (hu : u.Coherent)
    (hget : ∀ x, t.overlay.get? x = u.overlay.get? x)
    (horiginal : ∀ x, t.overlay.has x = true → t.original x = u.original x) :
    countChanges t = countChanges u := by
  unfold countChanges
  refine (Staging.perm_changes ht hu hget horiginal).foldl_eq' ?_ LineCount.zero
  intro a _ b _ n
  exact LineCount.add_right_comm _ _ _

/-- The migration of a project does the same on stagings that agree. -/
theorem migrateProject_congr (h : t.Agree u) (ht : t.Coherent) (hu : u.Coherent)
    (honly : m.StagesOnly t) (p : Project) (us : List Unit_) :
    AgreeRun (m.migrateProject t p us) (m.migrateProject u p us) := by
  have hrun := prepare_congr (h.alike (· ∈ m.reach p)) us
  have hgrown := grown_prepare m t p us
  have hgrown' := grown_prepare m u p us
  rw [migrateProject_eq, migrateProject_eq]
  generalize m.prepare t p us = rt at hrun hgrown
  generalize m.prepare u p us = ru at hrun hgrown'
  obtain ⟨t', r⟩ := rt
  obtain ⟨u', r'⟩ := ru
  obtain ⟨-, rfl, ops, hops, hops'⟩ := hrun
  have hlog : t'.log = u'.log := by
    dsimp only at hops hops'
    rw [hops, hops', h.log]
  have h' : t'.Agree u' := by
    refine ⟨?_, ?_, hlog, ?_, fun x => ?_⟩
    · rw [hgrown.disk, hgrown'.disk, h.disk]
    · rw [(hgrown.coherent ht).overlay_eq, (hgrown'.coherent hu).overlay_eq, hlog]
    · rw [hgrown.flushed, hgrown'.flushed, h.flushed]
    · rw [hgrown.original, hgrown'.original, h.original]
  cases r with
  | error f => exact .of_agree h' _
  | ok w =>
    dsimp only
    split
    · exact .of_agree h' _
    · next hwet =>
      have hnone : t'.disk = none :=
        hgrown.disk.trans (honly.resolve_left fun hdry => hwet (.inr hdry))
      have hflush := h'.flush hnone
      generalize t'.flush = ft at hflush
      generalize u'.flush = fu at hflush
      obtain ⟨t'', r⟩ := ft
      obtain ⟨u'', r'⟩ := fu
      obtain ⟨h'', rfl⟩ := hflush
      cases r with
      | error f => exact .of_agree h'' _
      | ok written => exact .of_agree h'' _

end Migration

end Retarget
