import Retarget.Proofs.Staging.Bookkeeping

/-!
# Going back to a mark

The log of a staging and the number of its operations that count as flushed decide every
answer that it gives from then on (`Session.answers_congr`): the disk and the overlay
follow from them, and what else was noted does not show.  While a program does not go
back behind a mark the log before the mark stays (`Session.Since`), so going back to the
mark restores the staging.
-/

namespace Retarget.Staging

variable {base : Option Disk} {s s' t u : Staging} {l : Location}

/-! ## What decides the answers -/

/-- Two stagings whose logs account for them, with the same log. -/
structure SameLog (base : Option Disk) (t u : Staging) : Prop where
  left : t.Sound base
  right : u.Sound base
  log : t.log = u.log

/-- As much of the log counts as flushed as well. -/
structure SameState (base : Option Disk) (t u : Staging) : Prop extends SameLog base t u where
  flushed : t.flushed = u.flushed

theorem SameLog.overlay (h : SameLog base t u) : t.overlay = u.overlay := by
  rw [h.left.coherent.overlay_eq, h.right.coherent.overlay_eq, h.log]

theorem SameState.disk (h : SameState base t u) : t.disk = u.disk := by
  have hdisk := h.left.disk
  rw [h.log, h.flushed, h.right.disk] at hdisk
  exact (Except.ok.inj hdisk).symm

theorem SameLog.original (h : SameLog base t u) (hbase : Rooted base) (hl : l.Plain) :
    t.original l = u.original l := by
  rw [h.left.original_eq hbase hl, h.right.original_eq hbase hl]

theorem SameLog.read (h : SameLog base t u) (hbase : Rooted base) (hl : l.Plain) :
    t.read l = u.read l := by
  rw [h.left.read_eq hbase hl, h.right.read_eq hbase hl, h.log]

theorem SameLog.exists_ (h : SameLog base t u) (hbase : Rooted base) (hl : l.Plain) :
    t.exists_ l = u.exists_ l := by
  rw [h.left.exists_eq hbase hl, h.right.exists_eq hbase hl, h.log]

theorem SameLog.changes (h : SameLog base t u) (hbase : Rooted base) : t.changes = u.changes := by
  unfold Staging.changes
  rw [← h.overlay]
  refine List.filterMap_congr fun x hx => ?_
  obtain ⟨op, hop, hmem⟩ : ∃ op ∈ t.log, x.1 ∈ op.paths := by
    rw [← Staged.has_replay_iff, ← h.left.coherent.overlay_eq]
    exact OrderedMap.has_of_mem hx
  have hnoted := h.left.coherent.original_eq hx
  rw [h.original hbase (h.left.plain op hop _ hmem),
    h.right.coherent.original_eq (h.overlay ▸ hx)] at hnoted
  simp only [Except.ok.inj hnoted]

/-- Whether a path can be written is decided by what it held at first. -/
theorem write_isOk (t : Staging) (p : Location) (x : String) :
    (t.write p x).map (fun _ => ()) = (t.original p).map fun _ => () := by
  unfold write
  rw [remember_eq]
  cases t.original p <;> rfl

/-- Whether a path can be renamed is decided by what is seen and by what was there at
first. -/
theorem rename_snd (t : Staging) (a b : Location) : (t.rename a b).2 =
    if t.exists_ b then .error (.archiveExists b.path)
    else (t.read a).bind fun _ => (t.original a).bind fun _ => (t.original b).map fun _ => () := by
  unfold rename
  split
  · rfl
  · cases t.read a with
    | error f => rfl
    | ok held =>
      dsimp only [Except.bind]
      unfold relink
      have ha := t.remember_eq a
      cases hv : t.remember a with
      | error f =>
        rw [hv] at ha
        cases horiginal : t.original a with
        | error f' => simpa [horiginal, Except.map] using ha
        | ok state => simp [horiginal, Except.map] at ha
      | ok v =>
        rw [hv] at ha
        have hb := v.remember_eq b
        rw [(remember_ok hv).2.1] at hb
        cases horiginal : t.original a with
        | error f' => simp [horiginal, Except.map] at ha
        | ok state =>
          cases hb' : t.original b with
          | error f => simp [hb, hb', Except.map]
          | ok state' => simp [hb, hb', Except.map]

/-- What a flush tells and how far it gets is decided by the disk and by what is
pending. -/
theorem flushAll_congr (hdisk : t.disk = u.disk) (hflushed : t.flushed = u.flushed)
    (ops : List Staged) : (t.flushAll ops).2 = (u.flushAll ops).2 ∧
      (t.flushAll ops).1.flushed = (u.flushAll ops).1.flushed := by
  induction ops generalizing t u with
  | nil => exact ⟨rfl, hflushed⟩
  | cons op ops ih =>
    rw [flushAll.eq_def, flushAll.eq_def u]
    simp only [← hdisk]
    cases t.disk with
    | none =>
      obtain ⟨hsnd, hfst⟩ := @ih { t with disk := none, flushed := t.flushed + 1 }
        { u with disk := none, flushed := u.flushed + 1 } rfl (by simp [hflushed])
      dsimp only at hsnd hfst ⊢
      exact ⟨by rw [hsnd], hfst⟩
    | some d =>
      rcases Staged.attempt_cases d op with ⟨e, -, hatt⟩ | ⟨e, f, -, hatt, -⟩
      · obtain ⟨hsnd, hfst⟩ := @ih { t with disk := some e, flushed := t.flushed + 1 }
          { u with disk := some e, flushed := u.flushed + 1 } rfl (by simp [hflushed])
        simp only [hatt] at hsnd hfst ⊢
        exact ⟨by rw [hsnd], hfst⟩
      · simp only [hatt]
        exact ⟨trivial, hflushed⟩

theorem flush_log (t : Staging) : t.flush.1.log = t.log := by
  obtain ⟨disk, n, heq, -, -⟩ := t.flush_fst
  rw [heq]

theorem SameState.rollback (h : SameState base t u) (m : Mark) :
    SameState base (t.rollback m) (u.rollback m) where
  left := h.left.rollback m
  right := h.right.rollback m
  log := by rw [rollback_log, rollback_log, h.log, h.flushed]
  flushed := by rw [rollback_flushed, rollback_flushed, h.flushed]

theorem SameState.flush (h : SameState base t u) (hbase : Rooted base) :
    SameState base t.flush.1 u.flush.1 ∧ t.flush.2 = u.flush.2 := by
  obtain ⟨hsnd, hfst⟩ := flushAll_congr h.disk h.flushed (t.log.drop t.flushed)
  have hflush : u.flush = u.flushAll (t.log.drop t.flushed) := by
    rw [Staging.flush, h.log, h.flushed]
  refine ⟨⟨⟨h.left.flush hbase, h.right.flush hbase, ?_⟩, ?_⟩, ?_⟩
  · rw [flush_log, flush_log, h.log]
  · exact hfst.trans (congrArg (fun r => r.1.flushed) hflush.symm)
  · exact hsnd.trans (congrArg Prod.snd hflush.symm)

theorem SameLog.write (h : SameLog base t u) (hbase : Rooted base) {p : Location} (hp : p.Plain)
    (x : String) :
    (∃ t' u', t.write p x = .ok t' ∧ u.write p x = .ok u' ∧ SameLog base t' u') ∨
      ∃ f, t.write p x = .error f ∧ u.write p x = .error f := by
  have hsame : (t.write p x).map (fun _ => ()) = (u.write p x).map fun _ => () := by
    rw [write_isOk, write_isOk, h.original hbase hp]
  cases ht : t.write p x with
  | error f =>
    cases hu : u.write p x with
    | error f' => exact .inr ⟨f, rfl, by simpa [ht, hu, Except.map, eq_comm] using hsame⟩
    | ok u' => simp [ht, hu, Except.map] at hsame
  | ok t' =>
    cases hu : u.write p x with
    | error f' => simp [ht, hu, Except.map] at hsame
    | ok u' =>
      exact .inl ⟨t', u', rfl, rfl, h.left.write hbase hp ht, h.right.write hbase hp hu,
        by rw [(write_ok ht).2.2, (write_ok hu).2.2, h.log]⟩

theorem SameLog.rename (h : SameLog base t u) (hbase : Rooted base) {a b : Location}
    (ha : a.Plain) (hb : b.Plain) :
    SameLog base (t.rename a b).1 (u.rename a b).1 ∧ (t.rename a b).2 = (u.rename a b).2 := by
  have hsame : (t.rename a b).2 = (u.rename a b).2 := by
    rw [rename_snd, rename_snd, h.exists_ hbase hb, h.read hbase ha, h.original hbase ha,
      h.original hbase hb]
  have hleft := h.left.rename hbase ha hb
  have hright := h.right.rename hbase ha hb
  refine ⟨?_, hsame⟩
  rcases t.rename_cases a b with ⟨t', x, ht, -, hx, -, -, hlog⟩ | ⟨t', f, ht, hagree⟩
  · rcases u.rename_cases a b with ⟨u', y, hu, -, hy, -, -, hlog'⟩ | ⟨u', f, hu, -⟩
    · obtain rfl : x = y := by
        rw [h.read hbase ha, hy] at hx
        exact (Except.ok.inj hx).symm
      rw [ht] at hleft ⊢
      rw [hu] at hright ⊢
      exact ⟨hleft, hright, by rw [hlog, hlog', h.log]⟩
    · rw [ht, hu] at hsame
      cases hsame
  · rcases u.rename_cases a b with ⟨u', y, hu, -⟩ | ⟨u', f', hu, hagree'⟩
    · rw [ht, hu] at hsame
      cases hsame
    · rw [ht] at hleft ⊢
      rw [hu] at hright ⊢
      exact ⟨hleft, hright, by rw [← hagree.log, ← hagree'.log, h.log]⟩

namespace Session

variable {marks : List Mark} {s v : Session} {a : Action} {i : Nat} {m : Mark}

/-- Only a flush changes what counts as flushed. -/
theorem flushed_act (ha : a ≠ .flush) : (v.act a).1.staging.flushed = v.staging.flushed := by
  cases a with
  | write p x =>
    cases hw : v.staging.write p.location x with
    | error f => simp [act, hw]
    | ok t => simpa [act, hw] using (write_ok hw).2.1
  | rename a b => exact (grown_rename v.staging a.location b.location).flushed
  | rollback i =>
    cases hm : v.marks[i]? with
    | none => simp [act, hm]
    | some m => simpa [act, hm] using v.staging.rollback_flushed m
  | flush => exact absurd rfl ha
  | exists_ p => rfl
  | read p => rfl
  | mark => rfl
  | pending => rfl
  | changes => rfl

/-- Stagings with the same log answer alike what is not about flushed operations. -/
theorem stage_congr (marks : List Mark) (hbase : Rooted base) (h : SameLog base t u) (ha : a.Plain)
    (hflush : a ≠ .flush) (hrollback : ∀ i, a ≠ .rollback i) :
    SameLog base (act ⟨t, marks⟩ a).1.staging (act ⟨u, marks⟩ a).1.staging ∧
      (act ⟨t, marks⟩ a).1.marks = (act ⟨u, marks⟩ a).1.marks ∧
      (a ≠ .pending → (act ⟨t, marks⟩ a).2 = (act ⟨u, marks⟩ a).2) := by
  cases a with
  | exists_ p => exact ⟨h, rfl, fun _ => congrArg Answer.flag (h.exists_ hbase ha)⟩
  | read p => exact ⟨h, rfl, fun _ => congrArg Answer.text (h.read hbase ha)⟩
  | write p x =>
    rcases h.write hbase ha x with ⟨t', u', ht, hu, h'⟩ | ⟨f, ht, hu⟩
    · simpa [act, ht, hu] using h'
    · simpa [act, ht, hu] using h
  | rename a b =>
    obtain ⟨h', hsame⟩ := h.rename hbase ha.1 ha.2
    exact ⟨h', rfl, fun _ => congrArg Answer.staged hsame⟩
  | mark =>
    have hmark : t.mark = u.mark := by simp [Staging.mark, h.log]
    exact ⟨h, by simp [act, hmark], fun _ => congrArg Answer.marked hmark⟩
  | rollback i => exact absurd rfl (hrollback i)
  | flush => exact absurd rfl hflush
  | pending => exact ⟨h, rfl, fun hne => absurd rfl hne⟩
  | changes => exact ⟨h, rfl, fun _ => congrArg Answer.changed (h.changes hbase)⟩

/-- Stagings in the same state answer an action alike. -/
theorem act_congr (hbase : Rooted base) (h : SameState base t u) (ha : a.Plain) :
    SameState base (act ⟨t, marks⟩ a).1.staging (act ⟨u, marks⟩ a).1.staging ∧
      (act ⟨t, marks⟩ a).1.marks = (act ⟨u, marks⟩ a).1.marks ∧
      (act ⟨t, marks⟩ a).2 = (act ⟨u, marks⟩ a).2 := by
  by_cases hflush : a = .flush
  · subst hflush
    obtain ⟨h', hsame⟩ := h.flush hbase
    exact ⟨h', rfl, congrArg Answer.flushed hsame⟩
  · by_cases hrollback : ∃ i, a = .rollback i
    · obtain ⟨i, rfl⟩ := hrollback
      cases hm : marks[i]? with
      | none => simpa [act, hm] using h
      | some m => simpa [act, hm] using h.rollback m
    · obtain ⟨hlog, hmarks, hanswer⟩ := stage_congr marks hbase h.toSameLog ha hflush
        fun i hi => hrollback ⟨i, hi⟩
      refine ⟨⟨hlog, ?_⟩, hmarks, ?_⟩
      · rw [flushed_act hflush, flushed_act hflush]
        exact h.flushed
      · by_cases hpending : a = .pending
        · subst hpending
          simp [act, Staging.pending, h.log, h.flushed]
        · exact hanswer hpending

/-- Stagings in the same state answer every program alike. -/
theorem answers_congr (hbase : Rooted base) (h : SameState base t u) (marks : List Mark)
    {program : List Action} (hplain : ∀ a ∈ program, a.Plain) :
    answers ⟨t, marks⟩ program = answers ⟨u, marks⟩ program := by
  induction program generalizing t u marks with
  | nil => rfl
  | cons a rest ih =>
    obtain ⟨hstate, hmarks, hanswer⟩ := act_congr hbase h (hplain a List.mem_cons_self)
    have hrest := ih hstate (act ⟨t, marks⟩ a).1.marks fun b hb =>
      hplain b (List.mem_cons_of_mem _ hb)
    rw [answers, answers, hanswer]
    refine congrArg _ (hrest.trans ?_)
    rw [hmarks]

/-! ## What stays behind a mark -/

/-- `v` is `s` with a mark taken and then with a program that did not go back behind that
mark. -/
structure Since (s v : Session) : Prop where
  log : s.staging.log <+: v.staging.log
  flushed : s.staging.flushed ≤ v.staging.flushed
  marks : s.marks ++ [s.staging.mark] <+: v.marks
  later : ∀ i m, s.marks.length ≤ i → v.marks[i]? = some m →
    s.staging.log.length ≤ m.length

theorem since_mark (s : Session) : Since s (s.act .mark).1 where
  log := List.prefix_rfl
  flushed := Nat.le_refl _
  marks := List.prefix_rfl
  later := by
    intro i m hi hm
    rw [act, List.getElem?_append_right hi] at hm
    obtain ⟨-, rfl⟩ := List.getElem?_eq_some_iff.mp hm
    simp [Staging.mark]

/-- The log behind the mark stays while nothing goes back behind it. -/
theorem Since.act (h : Since s v) (ha : ∀ i, a = .rollback i → s.marks.length ≤ i) :
    Since s (v.act a).1 := by
  have kept {t : Staging} (hlog : v.staging.log <+: t.log)
      (hflushed : v.staging.flushed ≤ t.flushed) : Since s { v with staging := t } :=
    ⟨h.log.trans hlog, Nat.le_trans h.flushed hflushed, h.marks, h.later⟩
  cases a with
  | write p x =>
    cases hw : v.staging.write p.location x with
    | error f => simpa [Session.act, hw] using h
    | ok t =>
      obtain ⟨-, hflushed, hlog⟩ := write_ok hw
      have hkept := kept (t := t) (hlog ▸ List.prefix_append _ _) (Nat.le_of_eq hflushed.symm)
      simpa [Session.act, hw] using hkept
  | rename a b =>
    have hgrown := grown_rename v.staging a.location b.location
    obtain ⟨ops, hops, -⟩ := hgrown.log
    exact kept (hops ▸ List.prefix_append _ _) (Nat.le_of_eq hgrown.flushed.symm)
  | mark =>
    refine ⟨h.log, h.flushed, h.marks.trans (List.prefix_append _ _), fun i m hi hm => ?_⟩
    by_cases hlt : i < v.marks.length
    · rw [Session.act, List.getElem?_append_left hlt] at hm
      exact h.later i m hi hm
    · rw [Session.act, List.getElem?_append_right (Nat.le_of_not_lt hlt)] at hm
      obtain ⟨-, rfl⟩ := List.getElem?_eq_some_iff.mp hm
      simpa [Staging.mark] using h.log.length_le
  | rollback i =>
    cases hm : v.marks[i]? with
    | none => simpa [Session.act, hm] using h
    | some m =>
      have hback : Since s { v with staging := v.staging.rollback m } := by
        refine ⟨?_, ?_, h.marks, h.later⟩
        · rw [rollback_log, List.prefix_take_iff]
          exact ⟨h.log, Nat.le_trans (h.later i m (ha i rfl) hm) (Nat.le_max_left _ _)⟩
        · rw [rollback_flushed]
          exact h.flushed
      simpa [Session.act, hm] using hback
  | flush =>
    obtain ⟨disk, n, heq, -, -⟩ := v.staging.flush_fst
    show Since s { v with staging := v.staging.flush.1 }
    rw [heq]
    exact kept List.prefix_rfl (Nat.le_add_right _ _)
  | exists_ p => exact h
  | read p => exact h
  | pending => exact h
  | changes => exact h

theorem Since.after (h : Since s v) {program : List Action}
    (hlater : ∀ i, .rollback i ∈ program → s.marks.length ≤ i) : Since s (v.after program) := by
  induction program generalizing v with
  | nil => exact h
  | cons a rest ih =>
    refine ih (h.act fun i hi => hlater i (hi ▸ List.mem_cons_self)) fun i hi => ?_
    exact hlater i (List.mem_cons_of_mem _ hi)

theorem flushed_after {program : List Action} (h : .flush ∉ program) :
    (v.after program).staging.flushed = v.staging.flushed := by
  induction program generalizing v with
  | nil => rfl
  | cons a rest ih =>
    obtain ⟨ha, hrest⟩ : .flush ≠ a ∧ .flush ∉ rest := by simpa using h
    rw [after_cons, ih hrest, flushed_act (Ne.symm ha)]

/-- Going back to the mark. -/
theorem Since.rollback (h : Since s v) : (v.act (.rollback s.marks.length)).1 =
    { v with staging := v.staging.rollback s.staging.mark } := by
  obtain ⟨marks, hmarks⟩ := h.marks
  have hget : v.marks[s.marks.length]? = some s.staging.mark := by
    rw [← hmarks]
    simp
  simp [Session.act, hget]

end Session

/-- A mark is taken of a staging that any program has led to, and a program follows that
does not go back behind this mark.  Going back to the mark then gives the log that there
was at the mark, or the operations flushed so far if these are more, with the overlay
that they make; it answers whatever comes later like any staging with this log of which
as much counts as flushed.  Without a flush in between that is the marked staging: the
log, the number of flushed operations, what is pending and the overlay are the ones
there were, and every later program gets the answers that it would have got there. -/
theorem rollback_restores (base : Option Disk) (hbase : Rooted base)
    (before between : List Action) (hbefore : ∀ a ∈ before, a.Plain)
    (hbetween : ∀ a ∈ between, a.Plain)
    (hlater : ∀ i, .rollback i ∈ between →
      ((Session.start base).after before).marks.length ≤ i) :
    let s := (Session.start base).after before
    let u := ((s.act .mark).1.after between).staging
    let v := (((s.act .mark).1.after between).act (.rollback s.marks.length)).1.staging
    (v.log = (if u.flushed ≤ s.staging.log.length then s.staging.log
        else u.log.take u.flushed) ∧
      v.flushed = u.flushed ∧ v.overlay = Staged.replay v.log ∧
      ∀ other, (∀ a ∈ other, a.Plain) →
        let w := ((Session.start base).after other).staging
        w.log = v.log → w.flushed = v.flushed → w.overlay = v.overlay ∧ w.disk = v.disk ∧
          ∀ marks later, (∀ a ∈ later, a.Plain) →
            Session.answers ⟨v, marks⟩ later = Session.answers ⟨w, marks⟩ later) ∧
    (.flush ∉ between →
      v.log = s.staging.log ∧ v.flushed = s.staging.flushed ∧
        v.pending = s.staging.pending ∧ v.overlay = s.staging.overlay ∧
        ∀ marks later, (∀ a ∈ later, a.Plain) →
          Session.answers ⟨v, marks⟩ later = Session.answers ⟨s.staging, marks⟩ later) := by
  intro s u v
  have hs : s.staging.Sound base := Session.sound_after hbase (sound_fresh base) hbefore
  have hsince : Session.Since s ((s.act .mark).1.after between) :=
    (Session.since_mark s).after hlater
  have hu : u.Sound base :=
    Session.sound_after (s := (s.act .mark).1) hbase hs hbetween
  have hv : v = u.rollback s.staging.mark := congrArg Session.staging hsince.rollback
  have hvsound : v.Sound base := hv ▸ hu.rollback s.staging.mark
  have hflushed : v.flushed = u.flushed := by rw [hv, rollback_flushed]
  have hlog : v.log = if u.flushed ≤ s.staging.log.length then s.staging.log
      else u.log.take u.flushed := by
    rw [hv, rollback_log]
    split
    · next hle =>
      rw [Staging.mark, Nat.max_eq_left hle]
      exact (List.prefix_iff_eq_take.mp hsince.log).symm
    · next hlt => rw [Staging.mark, Nat.max_eq_right (Nat.le_of_not_le hlt)]
  refine ⟨⟨hlog, hflushed, hvsound.coherent.overlay_eq, ?_⟩, fun hnone => ?_⟩
  · intro other hother w hwlog hwflushed
    have hw : w.Sound base := Session.sound_after hbase (sound_fresh base) hother
    have hsame : SameState base v w := ⟨⟨hvsound, hw, hwlog.symm⟩, hwflushed.symm⟩
    exact ⟨hsame.overlay.symm, hsame.disk.symm, fun marks later hplain =>
      Session.answers_congr hbase hsame marks hplain⟩
  · have hsame : u.flushed = s.staging.flushed := Session.flushed_after hnone
    have hkept : v.log = s.staging.log := by
      rw [hlog, if_pos (hsame ▸ hs.coherent.flushed_le)]
    have hboth : SameState base v s.staging := ⟨⟨hvsound, hs, hkept⟩, hflushed.trans hsame⟩
    exact ⟨hkept, hboth.flushed, by rw [Staging.pending, Staging.pending, hkept, hboth.flushed],
      hboth.overlay, fun marks later hplain => Session.answers_congr hbase hboth marks hplain⟩

/-- Writes, goes back to a mark of its own, moves a file and fails to write one. -/
def drafts : List Action :=
  [.write ⟨"n.js"⟩ "draft", .mark, .write ⟨"n.js"⟩ "again", .rollback 1,
    .rename ⟨"n.js"⟩ ⟨"m.js"⟩, .write ⟨"bin"⟩ "text"]

/-- A session in which a file was written anew. -/
def edited : Session :=
  (Session.start (some workshop)).after [.write ⟨"a/w.js"⟩ "new"]

/-- The same session after drafts that were taken back. -/
def restored : Staging :=
  (((edited.act .mark).1.after drafts).act (.rollback edited.marks.length)).1.staging

theorem rollback_restores_drafts :
    restored ≠ edited.staging ∧ restored.log = [.write [.name "a", .name "w.js"] "new"] ∧
      restored.pending = true ∧
      Session.answers ⟨restored, []⟩ [.changes, .flush] =
        Session.answers ⟨edited.staging, []⟩ [.changes, .flush] := by
  have hplain {p : Path} (names : List String) (h : p.location = names.map .name) :
      p.location.Plain := ⟨names, h⟩
  have hedits : ∀ a ∈ [Action.write ⟨"a/w.js"⟩ "new"], a.Plain := by
    simpa [Action.Plain] using hplain ["a", "w.js"] (by decide)
  have hdrafts : ∀ a ∈ drafts, a.Plain := by
    simp only [drafts, List.forall_mem_cons]
    exact ⟨hplain ["n.js"] (by decide), trivial, hplain ["n.js"] (by decide), trivial,
      ⟨hplain ["n.js"] (by decide), hplain ["m.js"] (by decide)⟩, hplain ["bin"] (by decide),
      by simp⟩
  obtain ⟨hlog, -, hpending, -, hanswers⟩ := (rollback_restores (some workshop) rooted_workshop
    [.write ⟨"a/w.js"⟩ "new"] drafts hedits hdrafts fun i _ => Nat.zero_le i).2 (by decide)
  have hwritten : edited.staging.log = [.write [.name "a", .name "w.js"] "new"] := by decide
  have hwaits : edited.staging.pending = true := by decide
  exact ⟨by decide, hlog.trans hwritten, hpending.trans hwaits,
    hanswers [] [.changes, .flush] (by simp [Action.Plain])⟩

end Retarget.Staging
