import Mathlib.Data.List.Basic
import Retarget.Migration.Run
import Retarget.Proofs.Path.Spelling
import Retarget.Proofs.Staging.Flushing
import Retarget.Proofs.Target.Stripping

/-!
# What the migration of a project can touch

`Migration.footprint` lists the paths that belong to a project: its document, the
old configs that its bound targets name, and their archives.  Migrating the
project looks at these paths and stages operations on them, and on no others; it gets
to those among them only, `Migration.reach`, whose configs have a name.

`migrateUnit_ok` is what later proofs know about a unit.  A unit that succeeds
leaves everything alone, or strips its target, or archives an old config that its
target names, writes a new one in its place and strips the target.
-/

namespace Retarget.Migration

/-- The old config that a target bound to the executor names. -/
def legacyLocation? (m : Migration) (t : Target) : Option Location :=
  if t.executor? = some m.profile.executor then
    (m.profile.reduction.legacyConfig? t).map fun s => (Path.mk s).location
  else none

/-- The old configs that the bound targets of a project name. -/
def configs (m : Migration) (p : Project) : List Location :=
  p.targets.filterMap fun t => m.legacyLocation? t.2

/-- Where an old config is archived. -/
def archive (m : Migration) (config : Location) : Location :=
  (m.profile.config.archivePath config.path).location

/-- The paths that belong to a project. -/
def footprint (m : Migration) (p : Project) : List Location :=
  p.configPath.location :: (m.configs p ++ (m.configs p).map m.archive)

/-- The old config that a target bound to the executor names by a name that is not
empty. -/
def oldConfig? (m : Migration) (t : Target) : Option Location :=
  if t.executor? = some m.profile.executor then
    ((m.profile.reduction.legacyConfig? t).filter (· ≠ "")).map fun s => (Path.mk s).location
  else none

/-- The old configs that the bound targets of a project name by names that are not
empty. -/
def oldConfigs (m : Migration) (p : Project) : List Location :=
  p.targets.filterMap fun t => m.oldConfig? t.2

/-- The paths that the migration of a project can get to. -/
def reach (m : Migration) (p : Project) : List Location :=
  p.configPath.location :: (m.oldConfigs p ++ (m.oldConfigs p).map m.archive)

variable {m : Migration} {p : Project} {t u v : Staging} {w x : Work} {config : Location}

theorem configPath_mem_reach : p.configPath.location ∈ m.reach p :=
  List.mem_cons_self

theorem config_mem_reach (h : config ∈ m.oldConfigs p) : config ∈ m.reach p :=
  List.mem_cons_of_mem _ (List.mem_append_left _ h)

theorem archive_mem_reach (h : config ∈ m.oldConfigs p) : m.archive config ∈ m.reach p :=
  List.mem_cons_of_mem _ (List.mem_append_right _ (List.mem_map_of_mem h))

theorem mem_oldConfigs {name : String} {target : Target}
    (ht : OrderedMap.get? p.targets name = some target)
    (hl : m.oldConfig? target = some config) : config ∈ m.oldConfigs p :=
  List.mem_filterMap.mpr ⟨(name, target), OrderedMap.mem_of_get? ht, hl⟩

theorem mem_configs_of_oldConfigs (h : config ∈ m.oldConfigs p) : config ∈ m.configs p := by
  obtain ⟨x, hx, hold⟩ := List.mem_filterMap.mp h
  refine List.mem_filterMap.mpr ⟨x, hx, ?_⟩
  unfold oldConfig? at hold
  unfold legacyLocation?
  split at hold
  · next hexec =>
    obtain ⟨text, htext, rfl⟩ := Option.map_eq_some_iff.mp hold
    rw [if_pos hexec, (Option.filter_eq_some_iff.mp htext).1]
    rfl
  · cases hold

/-- A project gets to no path that does not belong to it. -/
theorem mem_footprint_of_reach {x : Location} (h : x ∈ m.reach p) : x ∈ m.footprint p := by
  rcases List.mem_cons.mp h with rfl | h
  · exact List.mem_cons_self
  · refine List.mem_cons_of_mem _ ?_
    rcases List.mem_append.mp h with h | h
    · exact List.mem_append_left _ (mem_configs_of_oldConfigs h)
    · obtain ⟨config, hconfig, rfl⟩ := List.mem_map.mp h
      exact List.mem_append_right _ (List.mem_map_of_mem (mem_configs_of_oldConfigs hconfig))

/-- Old configs are well spelled. -/
theorem wellSpelled_of_mem_configs (h : config ∈ m.configs p) : config.WellSpelled := by
  obtain ⟨x, -, hx⟩ := List.mem_filterMap.mp h
  unfold legacyLocation? at hx
  split at hx
  · obtain ⟨text, -, rfl⟩ := Option.map_eq_some_iff.mp hx
    exact Path.wellSpelled_location _
  · cases hx

/-! ## Units -/

/-- A unit with an old config is bound to the executor, names that config, and
finds it there. -/
theorem classify_migratable {b : Unit_} {target : Target}
    (h : m.classify t b target = .migratable (some config)) :
    m.oldConfig? target = some config ∧ t.exists_ config = true ∧
      config.WellSpelled := by
  unfold classify at h
  split at h
  · simp at h
  · next hexec =>
    have hexec : target.executor? = some m.profile.executor := by simpa using hexec
    split at h
    · simp at h
    · split at h
      · simp at h
      · next key hkey =>
        split at h
        · simp at h
        · next path hpath =>
          split at h
          · simp at h
          · next hne =>
            split at h
            · next hex =>
              obtain rfl : (Path.mk path).location = config := by simpa using h
              refine ⟨?_, hex, Path.wellSpelled_location _⟩
              simp [oldConfig?, hexec, Reduction.legacyConfig?, Profile.reduction, hkey, hpath,
                Option.filter, hne]
            · simp at h

/-- A config moved to its archive and a new one written in its place. -/
def Replaced (m : Migration) (config : Location) (t v : Staging) : Prop :=
  ∃ u s, t.rename config (m.archive config) = (u, .ok ()) ∧ u.write config s = .ok v

/-- A new config is put in place of an old one after the old one was archived. -/
theorem synthesize_eq {e : Extracted} {s : Synthesized} (hc : config.WellSpelled)
    (h : m.profile.config.synthesize t config.path e = (v, .ok s)) :
    ∃ u, t.rename config (m.archive config) = (u, .ok ()) ∧
      u.write config (m.profile.config.contents e) = .ok v := by
  unfold PluginConfig.synthesize at h
  dsimp only at h
  rw [Location.location_path hc] at h
  split at h
  · simp at h
  · split at h
    · simp at h
    · split at h
      · simp at h
      · next u hrename =>
        split at h
        · simp at h
        · next v' hwrite =>
          obtain ⟨rfl, -⟩ := by simpa using h
          exact ⟨u, hrename, hwrite⟩

theorem synthesize_ok {e : Extracted} {s : Synthesized} (hc : config.WellSpelled)
    (h : m.profile.config.synthesize t config.path e = (v, .ok s)) : Replaced m config t v := by
  obtain ⟨u, hrename, hwrite⟩ := synthesize_eq hc h
  exact ⟨u, _, hrename, hwrite⟩

theorem grown_synthesize (hc : config.WellSpelled) (e : Extracted) :
    Staging.Grown (fun q => q = config ∨ q = m.archive config) t
      (m.profile.config.synthesize t config.path e).1 := by
  unfold PluginConfig.synthesize
  dsimp only
  rw [Location.location_path hc]
  have hrename := Staging.grown_rename t config (m.archive config)
  unfold archive at hrename
  split
  · exact .refl _ t
  · split
    · exact .refl _ t
    · split
      · next u f hr =>
        rw [hr] at hrename
        exact hrename
      · next u hr =>
        rw [hr] at hrename
        split
        · exact hrename
        · next hwrite =>
          exact hrename.trans ((Staging.grown_of_write hwrite).mono fun q hq => .inl hq)

/-- Warnings go to the end and are signed with the name of the project. -/
theorem Work.warnAll_eq (w : Work) (level : Level) (messages : List String) :
    w.warnAll level messages = { w with
      warnings := w.warnings ++ messages.map fun s => ⟨level, some w.project.name, s⟩ } := by
  induction messages generalizing w with
  | nil => simp [warnAll]
  | cons s messages ih =>
    have hcons : w.warnAll level (s :: messages) = (w.warn level s).warnAll level messages := rfl
    rw [hcons, ih]
    simp [warn]

/-- What is known after a config was replaced, or was found to be done. -/
theorem replaceConfig_ok (hc : config.WellSpelled)
    (h : m.replaceConfig t w config = (v, .ok x)) :
    x.project = w.project ∧ x.migrated = w.migrated ∧
      ((v = t ∧ x.extracted = w.extracted) ∨
        w.extracted.has config = false ∧ Replaced m config t v ∧
          ∃ e, x.extracted = w.extracted.insert config e) := by
  unfold replaceConfig at h
  split at h
  · obtain ⟨rfl, rfl⟩ := by simpa using h
    exact ⟨rfl, rfl, .inl ⟨rfl, rfl⟩⟩
  · next hnew =>
    split at h
    · simp at h
    · next e messages _ =>
      dsimp only at h
      split at h
      · simp at h
      · next hsyn =>
        obtain ⟨rfl, rfl⟩ := by simpa using h
        have hnew : w.extracted.has config = false := by simpa using hnew
        simp only [Work.warnAll_eq, true_and]
        exact .inr ⟨hnew, synthesize_ok hc hsyn, e, rfl⟩

theorem grown_replaceConfig (hc : config.WellSpelled) :
    Staging.Grown (fun q => q = config ∨ q = m.archive config) t
      (m.replaceConfig t w config).1 := by
  unfold replaceConfig
  split
  · exact .refl _ t
  · split
    · exact .refl _ t
    · next e messages _ =>
      have h := grown_synthesize (m := m) (t := t) hc e
      dsimp only
      split
      · next hsyn => simpa [hsyn] using h
      · next hsyn => simpa [hsyn] using h

/-- Stripping a unit counts it and gives its target another value, which keeps the
executor and names no other old config. -/
theorem stripUnit_eq (w : Work) (b : Unit_) (target : Target) :
    ∃ target', (m.stripUnit w b target).project = w.project.setTarget b.target target' ∧
      (m.oldConfig? target' = none ∨ m.oldConfig? target' = m.oldConfig? target) ∧
      (m.stripUnit w b target).migrated = w.migrated + 1 ∧
      (m.stripUnit w b target).extracted = w.extracted := by
  obtain ⟨released, messages, hreleased, hexec, hopt⟩ :
      ∃ released messages,
        m.releaseVariant w b target = (released, { w with warnings := messages }) ∧
        released.executor? = target.executor? ∧ released.options? = target.options? := by
    unfold releaseVariant
    split
    · exact ⟨_, w.warnings, rfl, rfl, rfl⟩
    · next name _ =>
      have h := m.profile.reduction.releaseOverride_apart target name (w.configs.get? b.target)
      dsimp only
      split
      · exact ⟨_, w.warnings, rfl, h⟩
      · exact ⟨_, _, rfl, h⟩
  refine ⟨(m.profile.reduction.stripUnit released b.configuration).1, ?_, ?_, ?_⟩
  · simp only [stripUnit, hreleased, Work.warnAll_eq]
  · unfold oldConfig?
    rw [Reduction.executor?_stripUnit, hexec]
    split
    · rw [← m.profile.reduction.legacyConfig?_congr hopt]
      rcases m.profile.reduction.legacyConfig?_stripUnit released b.configuration with h | h
      · exact .inl (by rw [h]; rfl)
      · exact .inr (by rw [h])
    · exact .inl rfl
  · simp only [stripUnit, hreleased, Work.warnAll_eq, and_self]

/-- What is known after a unit succeeded. -/
theorem migrateUnit_ok {b : Unit_} (h : m.migrateUnit t w b = (v, .ok x)) :
    (v = t ∧ x.project = w.project ∧ x.migrated = w.migrated ∧ x.extracted = w.extracted) ∨
      ∃ target target', OrderedMap.get? w.project.targets b.target = some target ∧
        x.project = w.project.setTarget b.target target' ∧
        (m.oldConfig? target' = none ∨ m.oldConfig? target' = m.oldConfig? target) ∧
        x.migrated = w.migrated + 1 ∧
        ((v = t ∧ x.extracted = w.extracted) ∨
          ∃ config e, m.oldConfig? target = some config ∧ t.exists_ config = true ∧
            w.extracted.has config = false ∧ Replaced m config t v ∧
            x.extracted = w.extracted.insert config e) := by
  unfold migrateUnit at h
  split at h
  · obtain ⟨rfl, rfl⟩ := by simpa using h
    exact .inl ⟨rfl, rfl, rfl, rfl⟩
  · next target htarget =>
    split at h
    · obtain ⟨rfl, rfl⟩ := by simpa using h
      exact .inl ⟨rfl, rfl, rfl, rfl⟩
    · obtain ⟨rfl, rfl⟩ := by simpa using h
      exact .inl ⟨rfl, rfl, rfl, rfl⟩
    · split at h
      · obtain ⟨rfl, rfl⟩ := by simpa using h
        exact .inl ⟨rfl, rfl, rfl, rfl⟩
      · obtain ⟨rfl, rfl⟩ := by simpa using h
        obtain ⟨target', hproject, hlegacy, hmigrated, hextracted⟩ := stripUnit_eq w b target
        exact .inr ⟨target, target', htarget, hproject, hlegacy, hmigrated, .inl ⟨rfl, hextracted⟩⟩
    · obtain ⟨rfl, rfl⟩ := by simpa using h
      obtain ⟨target', hproject, hlegacy, hmigrated, hextracted⟩ := stripUnit_eq w b target
      exact .inr ⟨target, target', htarget, hproject, hlegacy, hmigrated, .inl ⟨rfl, hextracted⟩⟩
    · next config hclass =>
      obtain ⟨hnamed, hthere, hc⟩ := classify_migratable hclass
      split at h
      · simp at h
      · next w' hreplace =>
        obtain ⟨rfl, rfl⟩ := by simpa using h
        obtain ⟨hw₁, hw₂, hw₃⟩ := replaceConfig_ok hc hreplace
        obtain ⟨target', hproject, hlegacy, hmigrated, hextracted⟩ :=
          stripUnit_eq (m := m) { w' with configs := w'.configs.insert b.target config } b target
        refine .inr ⟨target, target', htarget, ?_, hlegacy, ?_, ?_⟩
        · rw [hproject, hw₁]
        · rw [hmigrated, hw₂]
        · rw [hextracted]
          rcases hw₃ with hdone | ⟨hnew, hreplaced, e, he⟩
          · exact .inl hdone
          · exact .inr ⟨config, e, hnamed, hthere, hnew, hreplaced, he⟩

/-! ## A sample -/

/-- A failure shows whatever a result would have held. -/
theorem eq_error_of_map {ε α : Type} {r : Except ε α} {f : ε}
    (h : r.map (fun _ => ()) = .error f) : r = .error f := by
  cases r with
  | error g => simpa [Except.map] using h
  | ok a => simp [Except.map] at h

/-- A migration that moves the old configs of an executor out of the way. -/
def retire : Migration :=
  ⟨{ Profile.ofExecutor "retire" "build" with legacyKey := some "config" }, none, false⟩

/-- A target that `retire` migrates. -/
def retired (config : String) : Target :=
  (Target.ofExecutor "build").withOption "config" (.string config)

/-- The document of a project with two targets that `retire` migrates. -/
def retiredTwice (first second : String) : String :=
  let target (config : String) :=
    "\x7b\"executor\":\"build\",\"options\":\x7b\"config\":\"" ++ config ++ "\"\x7d\x7d"
  "\x7b\"targets\":\x7b\"build\":" ++ target first ++ ",\"serve\":" ++ target second ++ "\x7d\x7d"

/-- A project whose second old config is in no known language. -/
def halfway : Project :=
  ((Project.ofRoot "a" ⟨"a"⟩).setTarget "build" (retired "w.js")).setTarget "serve"
    (retired "v.json")

/-- A project that shares its old config with `halfway`. -/
def sharing : Project :=
  (Project.ofRoot "b" ⟨"b"⟩).setTarget "build" (retired "w.js")

/-- The two old configs, kept in memory. -/
def shelf : Staging :=
  ⟨none, [([.name "w.js"], some ""), ([.name "v.json"], some "")],
    [([.name "w.js"], none), ([.name "v.json"], none)],
    [.write [.name "w.js"] "", .write [.name "v.json"] ""], 0⟩

theorem reachable_shelf : shelf.Reachable := by
  have hfirst : Staging.inMemory.write (Path.location ⟨"w.js"⟩) "" =
      .ok ⟨none, [([.name "w.js"], some "")], [([.name "w.js"], none)],
        [.write [.name "w.js"] ""], 0⟩ := by decide +kernel
  exact .write (p := ⟨"v.json"⟩) (s := "") (.write .inMemory hfirst) (by decide +kernel)

example : retire.footprint sharing =
    [[.name "b", .name "project.json"], [.name "w.js"], [.name "w.old.js"]] := by
  decide +kernel

end Retarget.Migration
