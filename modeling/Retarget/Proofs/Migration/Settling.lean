import Retarget.Proofs.Migration.Carrying

/-!
# What a run leaves on a disk

Between two projects of a run nothing is pending, and the staged view and the disk
agree on which files are there.  `Settled d t e` says so about a staging `t` over the
disk `e` in a run that began on the disk `d`: folders are as they were, and no file is
gone.

`carries_migrateProject` is what a run does for one project: it carries swaps out, all of them
and then the document, or some of them and then it gives the project up.
-/

namespace Retarget.Migration

/-- Nothing is pending, and view and disk agree on which files are there. -/
structure Settled (d : Disk) (t : Staging) (e : Disk) : Prop where
  coherent : t.Coherent
  disk : t.disk = some e
  flushed : t.flushed = t.log.length
  standing : ∀ path state, t.overlay.get? path = some state →
    state.isSome = true ∧ e.isFile path = true
  rooted : e.Rooted
  folders : d.SameFolders e
  grown : ∀ n, (d.fileAt? n).isSome → (e.fileAt? n).isSome

variable {m : Migration} {p : Project} {d e e' : Disk} {t u v : Staging} {w : Work}
  {swaps : List Swap} {s : State}

theorem settled_open (hd : d.Rooted) : Settled d (.open d) d :=
  ⟨Staging.coherent_open d, rfl, rfl, by simp [Staging.open, OrderedMap.get?], hd, .refl d,
    fun _ h => h⟩

/-- The files that the view shows are those on the disk. -/
theorem Settled.exists_eq (h : Settled d t e) : t.exists_ = e.isFile := by
  funext path
  unfold Staging.exists_
  cases ho : t.overlay.get? path with
  | none => simp [h.disk]
  | some state =>
    obtain ⟨hsome, hfile⟩ := h.standing path state ho
    simp [hsome, hfile]

theorem Settled.of_agree (h : Settled d t e) (hagree : u.Agree t) (hu : u.Coherent) :
    Settled d u e where
  coherent := hu
  disk := hagree.disk.trans h.disk
  flushed := by rw [hagree.flushed, hagree.log, h.flushed]
  standing := by rw [hagree.overlay]; exact h.standing
  rooted := h.rooted
  folders := h.folders
  grown := h.grown

/-- Swaps that were staged and carried out leave nothing pending. -/
theorem Settled.carried (h : Settled d t e) (hc : m.Carried e swaps e') (hu : u.Coherent)
    (hdisk : u.disk = some e') (hlog : u.log = t.log ++ m.operations swaps)
    (hflushed : u.flushed = u.log.length) : Settled d u e' where
  coherent := hu
  disk := hdisk
  flushed := hflushed
  standing := by
    intro path state hstate
    obtain ⟨htouched, hothers⟩ := get?_replay_operations (m := m) t.log swaps
    rw [hu.overlay_eq, hlog] at hstate
    by_cases hpath : m.Swaps swaps path
    · obtain ⟨text, htext⟩ := htouched path hpath
      rw [htext] at hstate
      obtain rfl := Option.some.inj hstate
      exact ⟨rfl, hc.there path hpath⟩
    · rw [hothers path hpath, ← h.coherent.overlay_eq] at hstate
      obtain ⟨hsome, hfile⟩ := h.standing path state hstate
      exact ⟨hsome, isFile_of_grown hc.folders hc.grown hfile⟩
  rooted := hc.rooted
  folders := h.folders.trans hc.folders
  grown := fun n hn => hc.grown n (h.grown n hn)

/-- A file that was written over leaves nothing pending either. -/
theorem Settled.written {path : Location} {text : String} {n : List String}
    (h : Settled d t e) (hu : u.Coherent) (hdisk : u.disk = some e')
    (hlog : u.log = t.log ++ [.write path text]) (hflushed : u.flushed = u.log.length)
    (hfolders : e.SameFolders e') (hrooted : e'.Rooted) (hn : e.find path = .ok n)
    (hfiles : ∀ k, e'.fileAt? k = if k = n then some (.text text) else e.fileAt? k) :
    Settled d u e' := by
  have hgrown : ∀ k, (e.fileAt? k).isSome → (e'.fileAt? k).isSome := by
    intro k hk
    rw [hfiles]
    split
    · rfl
    · exact hk
  refine ⟨hu, hdisk, hflushed, ?_, hrooted, h.folders.trans hfolders,
    fun k hk => hgrown k (h.grown k hk)⟩
  intro q state hstate
  rw [hu.overlay_eq, hlog, Staged.replay_append, ← h.coherent.overlay_eq] at hstate
  simp only [List.foldl_cons, List.foldl_nil, Staged.apply, OrderedMap.get?_insert] at hstate
  split at hstate
  · next heq =>
    obtain rfl := Option.some.inj hstate
    refine ⟨rfl, Disk.isFile_iff.mpr ⟨n, .text text, ?_, by simp [hfiles]⟩⟩
    rw [heq]
    exact hfolders.find.mp hn
  · obtain ⟨hsome, hfile⟩ := h.standing q state hstate
    exact ⟨hsome, isFile_of_grown hfolders hgrown hfile⟩

/-- What a run that writes does to the disk for one project. -/
inductive Carries (m : Migration) (p : Project) (d : Disk) (t : Staging) (e : Disk) :
    Staging × Except Failure (Work × List Location) → Disk → Prop
  /-- the project was given up after some of its swaps -/
  | gaveUp {v : Staging} {f : Failure} (swaps : List Swap) {e' : Disk}
      (named : ∀ s ∈ swaps, s.config ∈ m.configs p)
      (free : ∀ s ∈ swaps, e.isFile (m.archive s.config) = false)
      (carried : m.Carried e swaps e') (settled : Settled d (v.rollback t.mark) e')
      (interrupted : t.flushed < v.flushed ↔ swaps ≠ []) :
      Carries m p d t e (v, .error f) e'
  /-- there was nothing to do -/
  | idle {w : Work} (zero : w.migrated = 0) : Carries m p d t e (t, .ok (w, [])) e
  /-- all swaps were carried out, and the document was written -/
  | finished {v : Staging} {w : Work} {written : List Location} {swaps : List Swap}
      {e₁ e' : Disk} {n : List String} {text : String}
      (named : ∀ s ∈ swaps, s.config ∈ m.configs p) (carried : m.Carried e swaps e₁)
      (document : e.find p.configPath.location = .ok n)
      (files : ∀ k, e'.fileAt? k = if k = n then some (.text text) else e₁.fileAt? k)
      (settled : Settled d v e') (some : w.migrated ≠ 0) :
      Carries m p d t e (v, .ok (w, written)) e'

/-- A project that fails before its flush leaves the disk as it was. -/
theorem carries_of_grown (h : Settled d t e) {f : Failure} {S : Location → Prop}
    (hgrown : Staging.Grown S t v) : m.Carries p d t e (v, .error f) e := by
  refine .gaveUp [] (by simp) (by simp) (carried_nil h.rooted)
    (h.of_agree (hgrown.rollback h.coherent) ((hgrown.coherent h.coherent).rollback _)) ?_
  simp [hgrown.flushed]

/-- A flush that is stopped by the archive of a swap. -/
theorem carries_of_stopped (h : Settled d t e) {before after : List Swap} {r : Swap} {e' : Disk}
    {f : Disk.Fault} {more : List Staged} (hu : u.Coherent) (hdisk : u.disk = some e)
    (hflushed : u.flushed = t.flushed)
    (hlog : u.log = t.log ++ (m.operations (before ++ r :: after) ++ more))
    (hnamed : ∀ s ∈ before ++ r :: after, s.config ∈ m.configs p)
    (hfree : ∀ s ∈ before ++ r :: after, e.isFile (m.archive s.config) = false)
    (hbefore : Staged.performAll e (m.operations before) = .ok e')
    (hcarried : m.Carried e before e')
    (hstop : (Staged.rename r.config (m.archive r.config) r.held).attempt e' = (e', .error f)) :
    ∃ v g, u.flush = (v, .error g) ∧ m.Carries p d t e (v, .error g) e' := by
  have hrest : u.log.drop u.flushed = m.operations before ++
      (.rename r.config (m.archive r.config) r.held ::
        (.write r.config r.written :: m.operations after ++ more)) := by
    have hcons : m.operations (r :: after) = .rename r.config (m.archive r.config) r.held ::
        .write r.config r.written :: m.operations after := rfl
    rw [hflushed, h.flushed, hlog, List.drop_left, operations_append, hcons]
    simp
  have hflush := Staging.flush_stopped hdisk hrest hbefore hstop
  refine ⟨_, _, hflush, ?_⟩
  have hcount : u.flushed + (m.operations before).length =
      (t.log ++ m.operations before).length := by
    rw [hflushed, h.flushed, List.length_append]
  have hv := hu.flush
  rw [hflush] at hv
  refine .gaveUp before (fun s hs => hnamed s (by simp [hs]))
    (fun s hs => hfree s (by simp [hs])) hcarried ?_ ?_
  · -- what was carried out stays in the log, and nothing else
    have hlog' : (Staging.rollback { u with
        disk := some e', flushed := u.flushed + (m.operations before).length } t.mark).log =
        t.log ++ m.operations before := by
      have hkeep : max t.mark.length (u.flushed + (m.operations before).length) =
          (t.log ++ m.operations before).length := by
        rw [hcount, List.length_append]
        exact Nat.max_eq_right (Nat.le_add_right _ _)
      rw [Staging.rollback_log, hkeep, hlog, operations_append, List.append_assoc,
        ← List.append_assoc, List.take_left]
    refine h.carried hcarried (hv.rollback t.mark) (Staging.rollback_disk _ _) hlog' ?_
    rw [Staging.rollback_flushed, hlog']
    exact hcount
  · dsimp only
    rw [hflushed, length_operations]
    cases before with
    | nil => simp
    | cons s before =>
      simp only [List.length_cons, ne_eq, reduceCtorEq, not_false_eq_true, iff_true]
      omega

/-- A flush that goes through. -/
theorem carries_of_carried (hw : w.migrated ≠ 0) (h : Settled d t e) {e₁ : Disk} {x : Staging}
    {text : String} (hx : x.Coherent) (hdisk : x.disk = some e) (hflushed : x.flushed = t.flushed)
    (hu : u.Coherent) (hulog : u.log = t.log ++ m.operations swaps)
    (hlog : x.log = u.log ++ [.write p.configPath.location text])
    (hnamed : ∀ s ∈ swaps, s.config ∈ m.configs p)
    (hswaps : Staged.performAll e (m.operations swaps) = .ok e₁)
    (hcarried : m.Carried e swaps e₁) (hdoc : e.isFile p.configPath.location = true) :
    ∃ v written e', x.flush = (v, .ok written) ∧
      m.Carries p d t e (v, .ok (w, written)) e' := by
  have hdoc' := isFile_of_grown hcarried.folders hcarried.grown hdoc
  obtain ⟨n, e', hn, hperform, hfolders, hrooted, hfiles⟩ :=
    Disk.perform_write hcarried.rooted (Path.here_not_mem_location _) hdoc' text
  have hrest : x.log.drop x.flushed =
      m.operations swaps ++ [.write p.configPath.location text] := by
    rw [hflushed, h.flushed, hlog, hulog, List.append_assoc, List.drop_left]
  have hall : Staged.performAll e (x.log.drop x.flushed) = .ok e' := by
    rw [hrest, Staged.performAll_append_ok hswaps, Staged.performAll_cons_ok hperform]
    rfl
  have hflush := Staging.flush_done hdisk hall
  refine ⟨_, _, e', hflush, ?_⟩
  have hv := hx.flush
  rw [hflush] at hv
  have hbetween : Settled d { u with disk := some e₁, flushed := u.log.length } e₁ :=
    h.carried hcarried ⟨hu.overlay_eq, Nat.le_refl _, hu.seen⟩ rfl hulog rfl
  refine .finished hnamed hcarried (hcarried.folders.find.mpr hn) hfiles ?_ hw
  refine hbetween.written hv rfl hlog ?_ hfolders hrooted hn hfiles
  rw [List.length_drop]
  exact Nat.add_sub_of_le hx.flushed_le

/-- What a run that writes does for a project whose document is there. -/
theorem carries_migrateProject (hm : m.profile.config.PlainSuffix) (hwet : m.dryRun = false)
    (h : Settled d t e) (hdoc : e.isFile p.configPath.location = true) (us : List Unit_) :
    ∃ e', m.Carries p d t e (m.migrateProject t p us) e' := by
  have hgrown := grown_migrateUnits (t := t) (tracks_start m p) us
  unfold migrateProject
  split
  · next u f hunits =>
    rw [hunits] at hgrown
    exact ⟨e, carries_of_grown h hgrown⟩
  · next u w hunits =>
    rw [hunits] at hgrown
    split
    · next hzero =>
      rw [eq_of_migrated_eq_zero hunits hzero]
      exact ⟨e, .idle hzero⟩
    · next hsome =>
      obtain ⟨swaps, htraced⟩ := traced_migrateUnits h.coherent hunits
      have hfresh := htraced.fresh
      rw [h.exists_eq] at hfresh
      have hpath : (settle w).configPath = p.configPath :=
        (settle_apart w).2.trans htraced.tracks.configPath
      unfold saveProject
      dsimp only
      rw [hpath, hwet]
      cases hwrite : u.write p.configPath.location (settle w).toText with
      | error f => exact ⟨e, carries_of_grown h hgrown⟩
      | ok x =>
        obtain ⟨hxdisk, hxflushed, hxlog⟩ := Staging.write_ok hwrite
        have hx := (Staging.grown_of_write hwrite).coherent htraced.coherent
        have hdisk : x.disk = some e := by rw [hxdisk, htraced.disk, h.disk]
        have hflushed : x.flushed = t.flushed := hxflushed.trans htraced.flushed
        rcases performAll_operations hm h.rooted hfresh fun s hs =>
            wellSpelled_of_mem_configs (htraced.named s hs) with
          ⟨e₁, hswaps, hcarried⟩ | ⟨before, s, after, e₁, f, rfl, hbefore, hcarried, hstop⟩
        · obtain ⟨v, written, e', hflush, hcarries⟩ :=
            carries_of_carried (w := { w with project := settle w }) hsome h hx hdisk hflushed
              htraced.coherent htraced.log hxlog htraced.named hswaps hcarried hdoc
          exact ⟨e', by simpa [hflush] using hcarries⟩
        · obtain ⟨v, g, hflush, hcarries⟩ :=
            carries_of_stopped (p := p) h hx hdisk hflushed
              (by rw [hxlog, htraced.log, List.append_assoc]) htraced.named hfresh.free hbefore
              hcarried hstop
          exact ⟨e₁, by simpa [hflush] using hcarries⟩

end Retarget.Migration
