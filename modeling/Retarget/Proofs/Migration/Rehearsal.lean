import Retarget.Proofs.Migration.RunLog
import Retarget.Proofs.Staging.Mirroring
import Retarget.Proofs.Workspace.Discovery

/-!
# Dry runs as rehearsals

A dry run shows its operations on top of the disk that it started from; a run that writes
carries them out project by project, and looks at the disk for what it has no operation
on.  `Rehearsed` relates the two: they have staged the same, and the one disk mirrors the
log of the other run.  Every step keeps it, as a project sees the same on both sides and
so has the same effect.

All of it asks that the paths that projects can get to are clear.  If two of them lead to
one place, a dry run takes them for two files.
-/

namespace Retarget

/-- A report without which files were written, and whether any could be. -/
def Report.unwritten (r : Report) : Report :=
  { r with dryRun := false, written := [] }

namespace Migration

open Disk (Below Clear Mirrors Truthful)

variable {m : Migration} {p : Project} {d e f : Disk} {S : Location → Prop} {t u v : Staging}
  {s r : State} {w : Workspace} {ps : List Project} {x : Location} {names : List String}
  {log ops : List Staged} {swaps : List Swap}

/-- The migration that writes nothing. -/
def dry (m : Migration) : Migration :=
  { m with dryRun := true }

/-- The migration that writes. -/
def wet (m : Migration) : Migration :=
  { m with dryRun := false }

/-- The paths that some projects can get to. -/
def Reached (m : Migration) (ps : List Project) (x : Location) : Prop :=
  ∃ p ∈ ps, x ∈ m.reach p

/-! ## Truthful operations -/

/-- Swaps that move what was there carry what the log shows. -/
theorem truthful_operations (h : ∀ before s after, swaps = before ++ s :: after →
    d.shown (log ++ m.operations before) s.config = some (.text s.held)) :
    d.Truthful log (m.operations swaps) := by
  induction swaps generalizing log with
  | nil => exact trivial
  | cons s swaps ih =>
    have hcons : m.operations (s :: swaps) = m.operations [s] ++ m.operations swaps := by
      rw [← operations_append, List.singleton_append]
    rw [hcons]
    refine Disk.truthful_append ⟨?_, ?_, trivial⟩ (ih fun before s' after hsplit => ?_)
    · intro a b text heq
      obtain ⟨rfl, -, rfl⟩ := Staged.rename.inj heq
      simpa [operations] using h [] s swaps rfl
    · intro a b text heq
      cases heq
    · have := h (s :: before) s' after (by rw [hsplit, List.cons_append])
      rwa [show m.operations (s :: before) = m.operations [s] ++ m.operations before by
        rw [← operations_append, List.singleton_append], ← List.append_assoc] at this

/-- What a migrated project stages carries what the log shows. -/
theorem Rewrites.truthful (h : m.Rewrites t log p names ops swaps) (hd : t.disk = some d) :
    d.Truthful log ops := by
  rw [h.operations]
  refine Disk.truthful_append (truthful_operations fun before s after hsplit => ?_)
    ⟨fun a b text heq => ?_, trivial⟩
  · exact Staging.shown_of_read (t := t.asOf (log ++ m.operations before)) rfl hd
      (h.faithful.held before s after hsplit)
  · cases heq

/-! ## A dry run and a run that writes -/

/-- A staging `t` that carries nothing out and one that carries everything out, with the
same log; `e` is the disk in the end. -/
structure Rehearsed (d e : Disk) (S : Location → Prop) (t u : Staging) : Prop where
  coherent : t.Coherent
  coherent' : u.Coherent
  log : t.log = u.log
  flushed : u.flushed = u.log.length
  disk : t.disk = some d
  mirror : ∃ f, u.disk = some f ∧ Mirrors d e S u.log f
  original : ∀ x, Clear d e S x → t.original x = u.original x

theorem rehearsed_open (hd : d.Rooted) (e : Disk) (S : Location → Prop) :
    Rehearsed d e S (.open d) (.open d) :=
  ⟨Staging.coherent_open d, Staging.coherent_open d, rfl, rfl, rfl,
    ⟨d, rfl, Disk.mirrors_nil hd e S⟩, fun _ _ => rfl⟩

/-- Both show the same wherever it is clear. -/
theorem Rehearsed.alike (h : Rehearsed d e S t u) : Staging.Alike (Clear d e S) t u := by
  obtain ⟨f, hf, hmirrors⟩ := h.mirror
  have ht : t.overlay = Staged.replay u.log := h.log ▸ h.coherent.overlay_eq
  refine ⟨fun x hx => ?_, fun x hx => ?_, h.original⟩
  · rw [Staging.read_eq_reading ht h.disk, Staging.read_eq_reading h.coherent'.overlay_eq hf,
      hmirrors.shown hx]
  · rw [Staging.exists_eq_isSome ht h.disk, Staging.exists_eq_isSome h.coherent'.overlay_eq hf,
      hmirrors.shown hx]

/-- Both have changed the same files. -/
theorem Rehearsed.countChanges_eq (h : Rehearsed d e S t u)
    (hclear : ∀ op ∈ t.log, ∀ x ∈ op.paths, Clear d e S x) : countChanges t = countChanges u := by
  refine countChanges_congr h.coherent h.coherent' (fun x => ?_) fun x hx => ?_
  · rw [h.coherent.overlay_eq, h.coherent'.overlay_eq, h.log]
  · rw [h.coherent.overlay_eq, Staged.has_replay_iff] at hx
    obtain ⟨op, hop, hx⟩ := hx
    exact h.original x (hclear op hop x hx)

/-- In the end the one shows what the other one leaves on the disk. -/
theorem Rehearsed.read_end (h : Rehearsed d e S t u) (hend : u.disk = some e)
    (hx : Clear d e S x) : t.read x = (Staging.open e).read x := by
  obtain ⟨f, hf, hmirrors⟩ := h.mirror
  obtain rfl := Option.some.inj (hf.symm.trans hend)
  rw [Staging.read_eq_reading h.coherent.overlay_eq h.disk, h.log, ← hmirrors.files x hx,
    Staging.read_open]

/-- Carrying out what was staged alike. -/
theorem Rehearsed.flush {t' : Staging} {written : List Location} (h : Rehearsed d e S t u)
    (ht : Staging.Extends t ops t') (hgrown : Staging.Grown T u v) (hlog : v.log = u.log ++ ops)
    (hpaths : ∀ op ∈ ops, ∀ x ∈ op.paths, S x ∧ Clear d e S x) (htrue : d.Truthful t.log ops)
    (hflush : v.flush = (u', .ok written)) (hbelow : ∀ g, u'.disk = some g → g.Below e) :
    Rehearsed d e S t' u' := by
  obtain ⟨f, hf, hmirrors⟩ := h.mirror
  have hdrop : v.log.drop v.flushed = ops := by
    rw [hgrown.flushed, h.flushed, hlog, List.drop_left]
  obtain ⟨g, hall, rfl⟩ := Staging.flush_ok (hgrown.disk.trans hf) hflush
  rw [hdrop] at hall
  have hmirrors' := Disk.mirrors_performAll hmirrors hpaths (h.log ▸ htrue) hall (hbelow g rfl)
  rw [← hlog] at hmirrors'
  have hcoherent := (hgrown.coherent h.coherent').flush
  rw [hflush] at hcoherent
  refine ⟨ht.coherent, hcoherent, ?_, ?_, ht.disk.trans h.disk, ⟨g, rfl, hmirrors'⟩, fun x hx => ?_⟩
  · rw [ht.log, h.log, hlog]
  · dsimp only
    rw [hdrop, hgrown.flushed, h.flushed, hlog, List.length_append]
  · rw [ht.original, h.original x hx, ← hgrown.original x]
    unfold Staging.original
    dsimp only
    cases v.firstSeen.get? x with
    | some state => rfl
    | none =>
      dsimp only
      cases hget : v.overlay.get? x with
      | some state => rfl
      | none =>
        -- no operation is on the path, so the flush did not change its file
        rw [(hgrown.coherent h.coherent').overlay_eq, hlog, Staged.replay_append,
          Staged.get?_foldl_apply, Option.or_eq_none_iff] at hget
        have hfile : g.file? x = f.file? x := by
          rw [hmirrors'.files x hx, hmirrors.files x hx, hlog]
          simp [Disk.shown, Staged.replay_append, Staged.get?_foldl_apply, hget]
        dsimp only
        rw [Staging.readDisk_eq (hgrown.disk.trans hf), Staging.readDisk_eq rfl, hfile]

/-- A project has the same effect on both sides, and afterwards they fit together again. -/
theorem Rehearsed.step (h : Rehearsed d e S s.staging r.staging)
    (hkeys : (OrderedMap.keys p.targets).Nodup)
    (hclear : ∀ x ∈ m.reach p, S x ∧ Clear d e S x) (hflushes : m.wet.flushes r p = true)
    (hbelow : ∀ g, (m.wet.step r p).staging.disk = some g → g.Below e) :
    m.dry.effect s.staging p = m.wet.effect r.staging p ∧
      Rehearsed d e S (m.dry.step s p).staging (m.wet.step r p).staging := by
  have halike : Staging.Alike (· ∈ m.dry.reach p) s.staging r.staging :=
    h.alike.mono fun x hx => (hclear x hx).2
  have heffect : m.dry.effect s.staging p = m.wet.effect r.staging p :=
    (effect_congr halike).trans
      (effect_of_profile (m := m.dry) (n := m.wet) rfl r.staging p)
  have hextends := extends_step (m := m.dry) h.coherent (.inl rfl) p
  have htrue : d.Truthful s.staging.log (m.dry.effect s.staging p).operations := by
    obtain ⟨hnone, hsome⟩ := rewrites_effect (m := m.dry) h.coherent (.inl rfl) hkeys
    by_cases hmoved : m.dry.stepTargets s p = []
    · rw [hnone hmoved]
      trivial
    · obtain ⟨swaps, hswaps⟩ := hsome hmoved
      exact hswaps.truthful h.disk
  refine ⟨heffect, ?_⟩
  have hstages := (brings_step h.coherent' hflushes).staging
  rw [← heffect] at hstages
  generalize (m.wet.step r p).staging = u' at hstages hbelow ⊢
  cases hstages with
  | nothing none agree coherent =>
    rw [none] at hextends
    exact ⟨hextends.coherent, coherent, by rw [hextends.log, h.log, agree.log, List.append_nil],
      by rw [agree.flushed, h.flushed, agree.log], hextends.disk.trans h.disk,
      by rw [agree.disk, agree.log]; exact h.mirror,
      fun x hx => by rw [hextends.original, h.original x hx, agree.original]⟩
  | staged dry _ _ => cases dry
  | flushed _ grown log flush =>
    exact h.flush hextends grown log
      (fun op hop x hx => hclear x (mem_reach_of_effect m.dry s.staging p op hop x hx)) htrue flush
      hbelow

/-- What a step does to a disk keeps its folders. -/
theorem Stages.below {c : Effect} (h : m.Stages p c t u) (hdisk : t.disk = some d) :
    ∃ f, u.disk = some f ∧ d.Below f := by
  cases h with
  | nothing _ agree _ => exact ⟨d, agree.disk.trans hdisk, fun _ h => h⟩
  | staged _ grown _ => exact ⟨d, grown.disk.trans hdisk, fun _ h => h⟩
  | flushed _ grown _ flush =>
    obtain ⟨f, hall, rfl⟩ := Staging.flush_ok (grown.disk.trans hdisk) flush
    exact ⟨f, rfl, (Staged.frame_performAll hall).folders⟩

theorem below_foldl (hs : s.staging.Coherent) (hflushes : m.flushesAll s ps = true)
    (hdisk : s.staging.disk = some d) :
    ∃ f, (ps.foldl m.step s).staging.disk = some f ∧ d.Below f := by
  induction ps generalizing s d with
  | nil => exact ⟨d, hdisk, fun _ h => h⟩
  | cons p ps ih =>
    obtain ⟨hone, hrest⟩ := Bool.and_eq_true_iff.mp hflushes
    obtain ⟨f, hf, hbelow⟩ := (brings_step hs hone).staging.below hdisk
    obtain ⟨g, hg, hbelow'⟩ := ih (coherent_step hs p) hrest hf
    exact ⟨g, hg, hbelow.trans hbelow'⟩

/-- Projects have the same effects on both sides. -/
theorem Rehearsed.foldl (h : Rehearsed d e S s.staging r.staging)
    (hkeys : ∀ p ∈ ps, (OrderedMap.keys p.targets).Nodup)
    (hclear : ∀ p ∈ ps, ∀ x ∈ m.reach p, S x ∧ Clear d e S x)
    (hflushes : m.wet.flushesAll r ps = true)
    (hend : (ps.foldl m.wet.step r).staging.disk = some e) :
    m.dry.effects s ps = m.wet.effects r ps ∧
      Rehearsed d e S (ps.foldl m.dry.step s).staging (ps.foldl m.wet.step r).staging := by
  induction ps generalizing s r with
  | nil => exact ⟨rfl, h⟩
  | cons p ps ih =>
    obtain ⟨hone, hrest⟩ := Bool.and_eq_true_iff.mp hflushes
    have hcoherent : (m.wet.step r p).staging.Coherent := coherent_step h.coherent' p
    obtain ⟨heffect, hstep⟩ := h.step (hkeys p List.mem_cons_self) (hclear p List.mem_cons_self)
      hone fun g hg => by
        obtain ⟨e', he', hbelow⟩ := below_foldl hcoherent hrest hg
        obtain rfl := Option.some.inj (he'.symm.trans hend)
        exact hbelow
    obtain ⟨heffects, hall⟩ := ih hstep (fun q hq => hkeys q (List.mem_cons_of_mem _ hq))
      (fun q hq => hclear q (List.mem_cons_of_mem _ hq)) hrest hend
    exact ⟨by rw [effects, effects, heffect, heffects], hall⟩

/-! ## Whole runs -/

/-- Projects stage operations on paths that they can get to. -/
theorem reached_of_staged {op : Staged} (hop : op ∈ staged (m.effects s ps)) (hx : x ∈ op.paths) :
    m.Reached ps x := by
  induction ps generalizing s with
  | nil => cases hop
  | cons p ps ih =>
    rw [effects, staged, List.flatMap_cons] at hop
    rcases List.mem_append.mp hop with hop | hop
    · exact ⟨p, List.mem_cons_self, mem_reach_of_effect m s.staging p op hop x hx⟩
    · obtain ⟨q, hq, hreach⟩ := ih hop
      exact ⟨q, List.mem_cons_of_mem _ hq, hreach⟩

theorem tell_unwritten (es : List (Project × Effect)) (r : Report) :
    (tell es r).unwritten = tell es r.unwritten := by
  unfold tell
  induction es generalizing r with
  | nil => rfl
  | cons x es ih => exact ih (x.2.report x.1.name r)

theorem unwritten_finish (s : State) :
    (finish s).result.map Report.unwritten =
      if s.report.unwritten.succeeded then
        .ok { s.report.unwritten with lineCount := countChanges s.staging }
      else .error .nothingMigrated := by
  rw [finish_eq]
  by_cases h : s.report.succeeded = true
  · have h' : s.report.unwritten.succeeded = true := h
    rw [if_pos h, if_pos h']
    rfl
  · have h' : ¬s.report.unwritten.succeeded = true := h
    simp [h, h', Except.map]

theorem unwritten_finish_congr (hreport : s.report.unwritten = r.report.unwritten)
    (hlines : countChanges s.staging = countChanges r.staging) :
    (finish s).result.map Report.unwritten = (finish r).result.map Report.unwritten := by
  rw [unwritten_finish, unwritten_finish, hreport, hlines]

/-- A directory with an old config. -/
def rack : Disk :=
  ⟨[(["a"], .folder), (["a", "w.js"], .file (.text "// old"))]⟩

/-- A project that names the old config. -/
def racked : Project :=
  (Project.ofRoot "a" ⟨"a"⟩).setTarget "build" (retired "a/w.js")

/-- A directory with two projects that name one old config in two spellings. -/
def neighbours : Disk :=
  let document (config : String) : Entry :=
    .file (.text ("\x7b\"targets\":\x7b\"build\":\x7b\"executor\":\"build\",\"options\":\x7b\"config\":\"" ++
      config ++ "\"\x7d\x7d\x7d\x7d"))
  ⟨[(["a"], .folder), (["a", "project.json"], document "a/w.js"), (["a", "w.js"], .file (.text "")),
    (["b"], .folder), (["b", "project.json"], document "b/../a/w.js")]⟩

end Migration

end Retarget
