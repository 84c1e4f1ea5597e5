import Mathlib.Data.List.Induction
import Retarget.Proofs.Migration.Outcome

/-!
# The operations that a project stages

Every operation that the units of a project stage belongs to a `Swap`: an old config
is moved to its archive and a new one is written in its place.  `Traced` follows the
swaps unit by unit.  No config is swapped twice, each was there when its turn came,
either from the start or as the archive of an earlier one, and no archive was taken.
-/

namespace Retarget.Migration

/-- An old config, what it held, and what is written in its place. -/
structure Swap where
  config : Location
  held : String
  written : String

/-- The operations of swaps, in order. -/
def operations (m : Migration) (swaps : List Swap) : List Staged :=
  swaps.flatMap fun s =>
    [.rename s.config (m.archive s.config) s.held, .write s.config s.written]

/-- The paths that swaps touch. -/
def Swaps (m : Migration) (swaps : List Swap) (path : Location) : Prop :=
  ∃ s ∈ swaps, path = s.config ∨ path = m.archive s.config

/-- Swaps that can follow each other, given the files that are there at first. -/
inductive Fresh (m : Migration) (there : Location → Bool) : List Swap → Prop
  | nil : Fresh m there []
  | snoc {swaps : List Swap} {s : Swap} (earlier : Fresh m there swaps)
      (found : there s.config = true ∨ ∃ r ∈ swaps, s.config = m.archive r.config)
      (new : ∀ r ∈ swaps, r.config ≠ s.config)
      (free : there (m.archive s.config) = false)
      (unused : ∀ r ∈ swaps, m.archive r.config ≠ m.archive s.config) :
      Fresh m there (swaps ++ [s])

variable {m : Migration} {p : Project} {t u v : Staging} {w x : Work} {swaps : List Swap}
  {config path : Location}

/-- No archive of fresh swaps was there at first. -/
theorem Fresh.free {there : Location → Bool} (h : m.Fresh there swaps) :
    ∀ s ∈ swaps, there (m.archive s.config) = false := by
  induction h with
  | nil => simp
  | snoc _ _ _ hfree _ ih =>
    intro r hr
    rcases List.mem_append.mp hr with hr | hr
    · exact ih r hr
    · rw [List.mem_singleton.mp hr]
      exact hfree

theorem operations_append (swaps more : List Swap) :
    m.operations (swaps ++ more) = m.operations swaps ++ m.operations more :=
  List.flatMap_append

theorem length_operations (swaps : List Swap) :
    (m.operations swaps).length = 2 * swaps.length := by
  induction swaps with
  | nil => rfl
  | cons s swaps ih =>
    have hcons : m.operations (s :: swaps) = m.operations [s] ++ m.operations swaps := by
      rw [← operations_append, List.singleton_append]
    rw [hcons, List.length_append, ih, List.length_cons]
    simp only [operations, List.flatMap_cons, List.flatMap_nil, List.append_nil,
      List.length_cons, List.length_nil]
    omega

/-- After swaps there is a file at each path that they touch. -/
theorem get?_replay_operations (log : List Staged) (swaps : List Swap) :
    (∀ path, m.Swaps swaps path →
      ∃ text, OrderedMap.get? (Staged.replay (log ++ m.operations swaps)) path =
        some (some text)) ∧
    ∀ path, ¬m.Swaps swaps path →
      OrderedMap.get? (Staged.replay (log ++ m.operations swaps)) path =
        OrderedMap.get? (Staged.replay log) path := by
  induction swaps using List.reverseRecOn with
  | nil =>
    constructor
    · rintro path ⟨s, hs, -⟩
      cases hs
    · intro path _
      simp [operations]
  | append_singleton swaps s ih =>
    obtain ⟨htouched, hothers⟩ := ih
    have hlast (path : Location) :
        OrderedMap.get? (Staged.replay (log ++ m.operations (swaps ++ [s]))) path =
          if path = s.config then some (some s.written)
          else if path = m.archive s.config then some (some s.held)
          else OrderedMap.get? (Staged.replay (log ++ m.operations swaps)) path := by
      rw [operations_append, ← List.append_assoc, Staged.replay_append]
      simp only [operations, List.flatMap_cons, List.flatMap_nil, List.append_nil,
        List.foldl_cons, List.foldl_nil, Staged.apply, OrderedMap.get?_insert]
      by_cases hpath : path = s.config
      · simp [hpath]
      · simp [hpath]
    constructor
    · rintro path ⟨r, hr, hpath⟩
      rw [hlast]
      split
      · exact ⟨_, rfl⟩
      · split
        · exact ⟨_, rfl⟩
        · next h₁ h₂ =>
          rcases List.mem_append.mp hr with hr | hr
          · exact htouched path ⟨r, hr, hpath⟩
          · obtain rfl := List.mem_singleton.mp hr
            rcases hpath with hpath | hpath
            · exact absurd hpath h₁
            · exact absurd hpath h₂
    · intro path hpath
      have hold : ¬m.Swaps swaps path := by
        rintro ⟨r, hr, h⟩
        exact hpath ⟨r, by simp [hr], h⟩
      rw [hlast, if_neg fun h => hpath ⟨s, by simp, .inl h⟩,
        if_neg fun h => hpath ⟨s, by simp, .inr h⟩]
      exact hothers path hold

/-! ## What one swap stages -/

/-- A replaced config is a swap that was staged, to an archive that was free. -/
theorem Replaced.swap (h : Replaced m config t v) :
    t.exists_ (m.archive config) = false ∧ v.disk = t.disk ∧ v.flushed = t.flushed ∧
      ∃ s : Swap, s.config = config ∧ v.log = t.log ++ m.operations [s] := by
  obtain ⟨u, text, hrename, hwrite⟩ := h
  obtain ⟨hfree, hdisk, hflushed, held, -, hlog⟩ := Staging.rename_ok hrename
  obtain ⟨hdisk', hflushed', hlog'⟩ := Staging.write_ok hwrite
  refine ⟨hfree, hdisk'.trans hdisk, hflushed'.trans hflushed, ⟨config, held, text⟩, rfl, ?_⟩
  rw [hlog', hlog, List.append_assoc]
  rfl

/-! ## What the units of a project stage -/

/-- The work on a project that began with the staging `t` and has swapped some of its
old configs. -/
structure Traced (m : Migration) (p : Project) (t : Staging) (swaps : List Swap) (u : Staging)
    (w : Work) : Prop where
  tracks : m.Tracks p w
  coherent : u.Coherent
  disk : u.disk = t.disk
  flushed : u.flushed = t.flushed
  log : u.log = t.log ++ m.operations swaps
  fresh : m.Fresh t.exists_ swaps
  extracted : ∀ c, w.extracted.has c = true ↔ ∃ s ∈ swaps, s.config = c
  named : ∀ s ∈ swaps, s.config ∈ m.configs p
  idle : w.migrated = 0 → swaps = []

theorem traced_start (ht : t.Coherent) : m.Traced p t [] t (.start p) :=
  ⟨tracks_start m p, ht, rfl, rfl, by simp [operations], .nil, by
    simp [Work.start, OrderedMap.has, OrderedMap.get?], by simp, fun _ => rfl⟩

/-- The files that are there after some swaps. -/
theorem Traced.exists_iff (h : m.Traced p t swaps u w) (ht : t.Coherent) :
    u.exists_ path = true ↔ m.Swaps swaps path ∨ t.exists_ path = true := by
  obtain ⟨htouched, hothers⟩ := get?_replay_operations (m := m) t.log swaps
  unfold Staging.exists_
  rw [h.coherent.overlay_eq, h.log, h.disk]
  by_cases hpath : m.Swaps swaps path
  · obtain ⟨text, htext⟩ := htouched path hpath
    simp [htext, hpath]
  · simp only [hothers path hpath, ht.overlay_eq, hpath, false_or]

/-- Every unit that succeeds adds a swap or none. -/
theorem Traced.migrateUnit (h : m.Traced p t swaps u w) (ht : t.Coherent) {b : Unit_}
    (hb : m.migrateUnit u w b = (v, .ok x)) :
    ∃ more, m.Traced p t (swaps ++ more) v x := by
  have htracks := h.tracks.migrateUnit hb
  have hcoherent : v.Coherent := by
    have hgrown := grown_migrateUnit (t := u) h.tracks b
    rw [hb] at hgrown
    exact hgrown.coherent h.coherent
  rcases migrateUnit_ok hb with ⟨rfl, -, hmigrated, hextracted⟩ |
    ⟨target, -, htarget, -, -, hmigrated, ⟨rfl, hextracted⟩ |
      ⟨config, e, hnamed, hthere, hnew, hreplaced, hextracted⟩⟩
  · refine ⟨[], ?_⟩
    rw [List.append_nil]
    exact { h with
      tracks := htracks
      extracted := by rw [hextracted]; exact h.extracted
      idle := by rw [hmigrated]; exact h.idle }
  · refine ⟨[], ?_⟩
    rw [List.append_nil]
    exact { h with
      tracks := htracks
      extracted := by rw [hextracted]; exact h.extracted
      idle := by omega }
  · obtain ⟨hfree, hdisk, hflushed, s, rfl, hlog⟩ := hreplaced.swap
    have hnew' : ∀ r ∈ swaps, r.config ≠ s.config := by
      intro r hr heq
      have := (h.extracted s.config).mpr ⟨r, hr, heq⟩
      simp [hnew] at this
    have hfree' : ¬(m.Swaps swaps (m.archive s.config) ∨
        t.exists_ (m.archive s.config) = true) := by
      rw [← h.exists_iff ht, hfree]
      simp
    refine ⟨[s], htracks, hcoherent, hdisk.trans h.disk, hflushed.trans h.flushed, ?_, ?_, ?_,
      ?_, by omega⟩
    · rw [hlog, h.log, operations_append, List.append_assoc]
    · refine .snoc h.fresh ?_ hnew' (by simpa using fun h => hfree' (.inr h)) ?_
      · rcases (h.exists_iff ht).mp hthere with ⟨r, hr, heq | heq⟩ | hexists
        · exact absurd heq.symm (hnew' r hr)
        · exact .inr ⟨r, hr, heq⟩
        · exact .inl hexists
      · exact fun r hr heq => hfree' (.inl ⟨r, hr, .inr heq.symm⟩)
    · intro c
      rw [hextracted, OrderedMap.has_insert, Bool.or_eq_true, h.extracted, decide_eq_true_eq]
      simp only [List.mem_append, List.mem_singleton, or_and_right, exists_or, exists_eq_left]
      rw [or_comm, eq_comm]
    · intro r hr
      rcases List.mem_append.mp hr with hr | hr
      · exact h.named r hr
      · rw [List.mem_singleton.mp hr]
        exact mem_configs_of_oldConfigs (h.tracks.named _ _ htarget _ hnamed)

/-- The swaps that all units of a project stage. -/
theorem traced_migrateUnits (ht : t.Coherent) {us : List Unit_}
    (h : m.migrateUnits t (.start p) us = (v, .ok x)) : ∃ swaps, m.Traced p t swaps v x := by
  refine migrateUnits_induction (P := fun v x => ∃ swaps, m.Traced p t swaps v x) ?_
    ⟨[], traced_start ht⟩ h
  rintro u w b v x ⟨swaps, htraced⟩ hb
  obtain ⟨more, hmore⟩ := htraced.migrateUnit ht hb
  exact ⟨_, hmore⟩

end Retarget.Migration
