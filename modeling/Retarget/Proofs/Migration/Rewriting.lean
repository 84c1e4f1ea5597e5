import Retarget.Proofs.Disk.Places
import Retarget.Proofs.Migration.BoundTargets
import Retarget.Proofs.Migration.Swaps
import Retarget.Proofs.Staging.Alike

/-!
# The old configs that a project rewrites

Among the units of a project only default options rewrite an old config, and only the
first ones that name it.  `Rewritten` follows the swaps of a project target by target: the
configs are those of the migrated targets, each once and in the order of first use, every
swap moves what its config held when its turn came, and what it writes is the rendering of
the fragments of that text.
-/

namespace Retarget.Migration

open Syntax

variable {m : Migration} {p : Project} {t u v : Staging} {w x : Work} {swaps : List Swap}
  {config : Location} {names : List String} {done rest : List (String × Target)} {n : String}
  {target : Target}

/-- The text of the new config for an old config that holds a text: the fragments of the
text, relocated to the root of the project, rendered. -/
def rendering (m : Migration) (p : Project) (config : Location) (held : String) :
    Except Failure String := do
  let d ← Dialect.ofPath config.path
  let e ← Extraction.ofText false m.profile.callees d config.path held
  return m.profile.config.contents
    ((e.entries.map Prod.fst).foldl (m.relocate p config) (e, [])).1

/-- The old configs of migrated targets, each once, in the order of first use. -/
def usedConfigs (m : Migration) (names : List String) (xs : List (String × Target)) :
    List Location :=
  ((xs.filter fun x => x.1 ∈ names).filterMap fun x =>
    m.profile.reduction.legacyPlace? x.2).eraseDups

/-- What is known of the swaps of a project: every one moves what its config held when its
turn came, and writes the rendering of that. -/
structure Faithful (m : Migration) (p : Project) (t : Staging) (log : List Staged)
    (swaps : List Swap) : Prop where
  held : ∀ before s after, swaps = before ++ s :: after →
    (t.asOf (log ++ m.operations before)).read s.config = .ok s.held
  written : ∀ s ∈ swaps, m.rendering p s.config s.held = .ok s.written

theorem faithful_nil (m : Migration) (p : Project) (t : Staging) (log : List Staged) :
    m.Faithful p t log [] :=
  ⟨by simp, by simp⟩

theorem Faithful.snoc {log : List Staged} {s : Swap} (h : m.Faithful p t log swaps)
    (hheld : (t.asOf (log ++ m.operations swaps)).read s.config = .ok s.held)
    (hwritten : m.rendering p s.config s.held = .ok s.written) :
    m.Faithful p t log (swaps ++ [s]) := by
  refine ⟨fun before r after hsplit => ?_, fun r hr => ?_⟩
  · rcases List.eq_nil_or_concat after with rfl | ⟨after, y, rfl⟩
    · obtain ⟨rfl, hlast⟩ := List.append_inj' hsplit rfl
      obtain rfl := List.singleton_inj.mp hlast
      exact hheld
    · rw [List.concat_eq_append, ← List.cons_append, ← List.append_assoc] at hsplit
      exact h.held before r after (List.append_inj' hsplit rfl).1
  · rcases List.mem_append.mp hr with hr | hr
    · exact h.written r hr
    · rw [List.mem_singleton.mp hr]
      exact hwritten

/-- Reading a config and rendering its fragments. -/
theorem extract_ok {e : Extracted} {unresolved : List String} (hc : config.WellSpelled)
    (h : m.extract t p config = .ok (e, unresolved)) :
    ∃ held, t.read config = .ok held ∧
      m.rendering p config held = .ok (m.profile.config.contents e) := by
  unfold extract at h
  obtain ⟨found, hfile, h⟩ := ok_of_bind h
  obtain ⟨d, hd, hfile⟩ := ok_of_bind hfile
  obtain ⟨held, hheld, hfile⟩ := ok_of_bind hfile
  rw [Location.location_path hc] at hheld
  refine ⟨held, hheld, ?_⟩
  split at hfile
  · next htext =>
    obtain rfl := Except.ok.inj hfile
    have hrelocated := Except.ok.inj h
    simp only [rendering, hd, htext, hrelocated, bind, Except.bind, pure, Except.pure]
  · cases hfile

/-! ## Following the swaps -/

/-- The work on a project that began with the staging `t` and rewrote some configs. -/
structure Rewritten (m : Migration) (p : Project) (t : Staging) (swaps : List Swap)
    (u : Staging) (w : Work) : Prop where
  log : u.log = t.log ++ m.operations swaps
  disk : u.disk = t.disk
  coherent : u.Coherent
  extracted : w.extracted.keys = swaps.map Swap.config
  faithful : m.Faithful p t t.log swaps

theorem rewritten_start (m : Migration) (p : Project) (ht : t.Coherent) :
    m.Rewritten p t [] t (.start p) :=
  ⟨by simp [operations], rfl, ht, rfl, faithful_nil m p t _⟩

/-- A config that was rewritten is not rewritten again; another one is. -/
theorem Rewritten.replaceConfig (h : m.Rewritten p t swaps u w)
    (hroot : w.project.root = p.root) (hc : config.WellSpelled)
    (hr : m.replaceConfig u w config = (v, .ok x)) :
    ∃ more, m.Rewritten p t (swaps ++ more) v x ∧
      more.map Swap.config = [config].filter (· ∉ swaps.map Swap.config) := by
  have hgrown := grown_replaceConfig (m := m) (t := u) (w := w) hc
  have hknown : w.extracted.has config = true ↔ config ∈ swaps.map Swap.config := by
    rw [← h.extracted, OrderedMap.has_iff_mem_keys]
  rw [hr] at hgrown
  unfold Migration.replaceConfig at hr
  split at hr
  · next hdone =>
    obtain ⟨rfl, rfl⟩ := by simpa using hr
    refine ⟨[], by rwa [List.append_nil], ?_⟩
    rw [List.filter_cons_of_neg (by simpa using hknown.mp hdone)]
    rfl
  · next hnew =>
    have hmem : config ∉ swaps.map Swap.config := fun hin => hnew (hknown.mpr hin)
    split at hr
    · simp at hr
    · next e unresolved hextract =>
      dsimp only at hr
      split at hr
      · simp at hr
      · next v' s hsyn =>
        obtain ⟨rfl, rfl⟩ := by simpa using hr
        rw [extract_of_root hroot] at hextract
        obtain ⟨held, hheld, hwritten⟩ := extract_ok hc hextract
        obtain ⟨y, hrename, hwrite⟩ := synthesize_eq hc hsyn
        obtain ⟨-, -, -, held', hheld', hlog⟩ := Staging.rename_ok hrename
        obtain ⟨-, -, hlog'⟩ := Staging.write_ok hwrite
        obtain rfl := Except.ok.inj (hheld.symm.trans hheld')
        refine ⟨[⟨config, held, m.profile.config.contents e⟩], ?_, by
          rw [List.filter_cons_of_pos (by simpa using hmem)]; rfl⟩
        refine ⟨?_, hgrown.disk.trans h.disk, hgrown.coherent h.coherent, ?_, ?_⟩
        · rw [hlog', hlog, h.log, operations_append]
          simp [operations]
        · have hkeys : config ∉ w.extracted.keys := by rwa [h.extracted]
          simp only [Work.warnAll_eq, OrderedMap.insert_of_not_mem hkeys]
          simp [OrderedMap.keys, ← h.extracted]
        · refine h.faithful.snoc ?_ hwritten
          rw [← h.log, h.coherent.read_asOf h.disk]
          exact hheld

/-- The units of a target rewrite the config that its default options name, unless it was
rewritten before. -/
theorem Rewritten.unitsOfTarget (h : m.Rewritten p t swaps u w) (hw : m.Untouched p w n target)
    (hconfigs : w.configs.get? n = none)
    (hrun : m.migrateUnits u w (Workspace.unitsOfTarget p n target) = (v, .ok x)) :
    ∃ more, m.Rewritten p t (swaps ++ more) v x ∧ more.map Swap.config =
      if (m.classify u ⟨p.name, p.root, n, none⟩ target).isMigratable then
        (m.profile.reduction.legacyPlace? target).toList.filter (· ∉ swaps.map Swap.config)
      else [] := by
  rcases classify_base (p := p) (n := n) hw.bound u with ⟨reason, hclass⟩ | hclass
  · rw [migrateUnits_of_skipped_base hw hclass] at hrun
    obtain ⟨rfl, rfl⟩ := by simpa using hrun
    refine ⟨[], ?_, by simp [hclass, Class.isMigratable]⟩
    rw [List.append_nil]
    exact ⟨h.log, h.disk, h.coherent, h.extracted, h.faithful⟩
  · rw [migrateUnits_of_migratable hw hconfigs hclass] at hrun
    rw [hclass]
    cases hplace : m.profile.reduction.legacyPlace? target with
    | none =>
      rw [hplace] at hrun
      obtain ⟨rfl, rfl⟩ := by simpa using hrun
      refine ⟨[], ?_, by simp⟩
      rw [List.append_nil]
      exact ⟨h.log, h.disk, h.coherent, h.extracted, h.faithful⟩
    | some config =>
      rw [hplace] at hrun hclass
      dsimp only at hrun
      split at hrun
      · simp at hrun
      · next y hreplace =>
        obtain ⟨rfl, rfl⟩ := by simpa using hrun
        obtain ⟨more, hmore, hmap⟩ := h.replaceConfig hw.root (classify_migratable hclass).2.2 hreplace
        refine ⟨more, ⟨hmore.log, hmore.disk, hmore.coherent, hmore.extracted, hmore.faithful⟩, ?_⟩
        simpa [Class.isMigratable] using hmap

/-! ## All targets -/

theorem usedConfigs_skip (m : Migration) (xs : List (String × Target)) {y : String × Target}
    (hy : y.1 ∉ names) : m.usedConfigs names (xs ++ [y]) = m.usedConfigs names xs := by
  rw [usedConfigs, List.filter_append, List.filter_cons_of_neg (by simpa using hy),
    List.filter_nil, List.append_nil, usedConfigs]

theorem usedConfigs_take (m : Migration) {xs : List (String × Target)} {y : String × Target}
    (hy : y.1 ∉ xs.map Prod.fst) :
    m.usedConfigs (names ++ [y.1]) (xs ++ [y]) = m.usedConfigs names xs ++
      (m.profile.reduction.legacyPlace? y.2).toList.filter (· ∉ m.usedConfigs names xs) := by
  have hsame : (xs.filter fun x => x.1 ∈ names ++ [y.1]) = xs.filter fun x => x.1 ∈ names := by
    refine List.filter_congr fun x hx => ?_
    have hne : x.1 ≠ y.1 := fun e => hy (e ▸ List.mem_map_of_mem hx)
    simp [hne]
  rw [usedConfigs, List.filter_append, hsame, List.filter_cons_of_pos (by simp), List.filter_nil,
    List.filterMap_append, List.eraseDups_append]
  cases hplace : m.profile.reduction.legacyPlace? y.2 with
  | none => simp [usedConfigs, hplace]
  | some config =>
    have hone : [y].filterMap (fun x => m.profile.reduction.legacyPlace? x.2) = [config] := by
      simp [hplace]
    rw [hone, Option.toList_some, List.removeAll]
    by_cases hmem : config ∈ (xs.filter fun x => x.1 ∈ names).filterMap fun x =>
        m.profile.reduction.legacyPlace? x.2
    · have hused : config ∈ m.usedConfigs names xs := List.mem_eraseDups.mpr hmem
      rw [List.filter_cons_of_neg (by simpa [and_assoc] using hmem),
        List.filter_cons_of_neg (by simpa using hused)]
      rfl
    · have hused : config ∉ m.usedConfigs names xs := fun h => hmem (List.mem_eraseDups.mp h)
      rw [List.filter_cons_of_pos (by simpa using hmem),
        List.filter_cons_of_pos (by simpa using hused)]
      rfl

/-- The targets of a project rewrite the configs of those that are migrated. -/
theorem Rewritten.targets (hkeys : (OrderedMap.keys p.targets).Nodup)
    (hh : m.Handled p done names w) (h : m.Rewritten p t swaps u w)
    (hswaps : swaps.map Swap.config = m.usedConfigs names done)
    (hbound : ∀ x ∈ rest, x ∈ m.bound p) (hnames : ((done ++ rest).map Prod.fst).Nodup)
    (hrun : m.migrateUnits u w (rest.flatMap fun x => Workspace.unitsOfTarget p x.1 x.2) =
      (v, .ok x)) :
    ∃ swaps', m.Rewritten p t swaps' v x ∧
      swaps'.map Swap.config = m.usedConfigs (names ++ m.takenFrom p u w rest) (done ++ rest) := by
  induction rest generalizing u w swaps done names with
  | nil =>
    obtain ⟨rfl, rfl⟩ := by simpa [migrateUnits] using hrun
    exact ⟨swaps, h, by simpa [takenFrom] using hswaps⟩
  | cons y rest ih =>
    have hnew : y.1 ∉ done.map Prod.fst := by
      rw [List.map_append] at hnames
      intro hin
      exact (List.nodup_append.mp hnames).2.2 _ hin _ (by simp) rfl
    have hy := hbound y List.mem_cons_self
    have huntouched := hh.untouched hkeys hy hnew
    have hout := migrateUnits_of_target huntouched (hh.configs _ hnew) u
    have hrest : ∀ z ∈ rest, z ∈ m.bound p := fun z hz => hbound z (List.mem_cons_of_mem _ hz)
    have hnames' : ((done ++ [y] ++ rest).map Prod.fst).Nodup := by
      simpa using hnames
    rw [List.flatMap_cons, migrateUnits_append] at hrun
    rw [takenFrom]
    generalize hone : m.migrateUnits u w (Workspace.unitsOfTarget p y.1 y.2) = result at hout hrun
    cases hout with
    | failed => simp at hrun
    | skipped base =>
      obtain ⟨more, hmore, hmap⟩ := h.unitsOfTarget huntouched (hh.configs _ hnew) hone
      have hhandled := hh.skip hnew
      rw [base] at hmap
      obtain ⟨swaps', hswaps', hmap'⟩ := ih (hhandled _) hmore (by
        rw [List.map_append, hmap, hswaps, usedConfigs_skip m done fun hin => hnew (hh.among _ hin)]
        simp [Class.isMigratable]) hrest hnames' hrun
      exact ⟨swaps', hswaps', by simpa [base, Class.isMigratable] using hmap'⟩
    | migrated base told others =>
      obtain ⟨more, hmore, hmap⟩ := h.unitsOfTarget huntouched (hh.configs _ hnew) hone
      rw [base] at hmap
      obtain ⟨swaps', hswaps', hmap'⟩ := ih (hh.reduce hkeys hy hnew told others) hmore (by
        rw [List.map_append, hmap, usedConfigs_take m hnew, ← hswaps]
        simp [Class.isMigratable]) hrest hnames' hrun
      exact ⟨swaps', hswaps', by simpa [base, Class.isMigratable] using hmap'⟩

/-! ## The whole project -/

/-- A project that is migrated rewrites the configs of its migrated targets, and then its
document. -/
theorem rewritten_prepare (hkeys : (OrderedMap.keys p.targets).Nodup) (ht : t.Coherent)
    (h : m.prepare t p (Workspace.unitsOfProject m.profile.executor p) = (u, .ok w))
    (hsome : w.migrated ≠ 0) :
    ∃ swaps, swaps.map Swap.config = m.usedConfigs (m.taken t p) (m.bound p) ∧
      m.Faithful p t t.log swaps ∧ u.log = t.log ++ (m.operations swaps ++
        [.write p.configPath.location (m.reworked (m.taken t p) p).toText]) := by
  obtain ⟨-, -, v, x, hunits, rfl, hwrite⟩ := (prepare_ok h).resolve_left fun h => hsome h.1
  have hnames : (([] ++ m.bound p).map Prod.fst).Nodup :=
    hkeys.sublist (List.filter_sublist.map _)
  have hhandled : m.Handled p (m.bound p) (m.taken t p) x :=
    (handled_start m p).migrateUnits hkeys (fun _ hx => hx) hnames hunits
  obtain ⟨swaps, hswaps, hconfigs⟩ := (rewritten_start m p ht).targets hkeys (handled_start m p)
    rfl (fun _ hx => hx) hnames hunits
  obtain ⟨-, -, hlog⟩ := Staging.write_ok hwrite
  have hsettled : settle x = m.reworked (m.taken t p) p := hhandled.settle hkeys
  refine ⟨swaps, hconfigs, hswaps.faithful, ?_⟩
  rw [hlog, hswaps.log, List.append_assoc, ← hsettled]

end Retarget.Migration
