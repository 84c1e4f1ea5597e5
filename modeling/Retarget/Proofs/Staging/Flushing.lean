import Retarget.Proofs.Staging.Growth

/-!
# Flushing

A flush carries out what is pending, operation by operation, and stops at the
first one that fails.  `flush_cases` says what can come of it: all operations
were carried out, or those before one that failed.  Nothing but the disk and the
count of flushed operations changes.

`Staging.Reachable` are the stagings that a program can get hold of, with a
directory that somebody else may change in between.  All of them are coherent.
-/

namespace Retarget

namespace Staged

/-- Carries operations out one after the other. -/
def performAll (d : Disk) (ops : List Staged) : Except Disk.Fault Disk :=
  ops.foldlM perform d

/-- The path that an operation gives a content. -/
def target : Staged → Location
  | write p _ => p
  | rename _ b _ => b

theorem performAll_cons_ok {d e : Disk} {op : Staged} {ops : List Staged}
    (h : op.perform d = .ok e) : performAll d (op :: ops) = performAll e ops := by
  simp [performAll, List.foldlM_cons, h, bind, Except.bind]

theorem performAll_append_ok {d e : Disk} {ops more : List Staged}
    (h : performAll d ops = .ok e) : performAll d (ops ++ more) = performAll e more := by
  simp only [performAll] at h ⊢
  rw [List.foldlM_append, h]
  rfl

/-- The state between two operations that were both carried out. -/
theorem performAll_cons_inv {d e : Disk} {op : Staged} {ops : List Staged}
    (h : performAll d (op :: ops) = .ok e) :
    ∃ d', op.perform d = .ok d' ∧ performAll d' ops = .ok e := by
  cases hop : op.perform d with
  | error f => simp [performAll, List.foldlM_cons, hop, bind, Except.bind] at h
  | ok d' => exact ⟨d', rfl, by rwa [performAll_cons_ok hop] at h⟩

/-- What an attempt leaves: the disk with the operation carried out, or the
folders that were made before it failed. -/
theorem attempt_cases (d : Disk) (op : Staged) :
    (∃ e, op.perform d = .ok e ∧ op.attempt d = (e, .ok ())) ∨
      ∃ e f, op.perform d = .error f ∧ op.attempt d = (e, .error f) ∧
        (e = d ∨ d.makeFolders op.target.parent = .ok e) := by
  unfold attempt
  cases hop : op.perform d with
  | ok e => exact .inl ⟨e, rfl, rfl⟩
  | error f =>
    cases op with
    | write p s =>
      cases hm : d.makeFolders p.parent with
      | ok e => exact .inr ⟨e, f, rfl, by simp [hm], .inr hm⟩
      | error g => exact .inr ⟨d, f, rfl, by simp [hm], .inl rfl⟩
    | rename a b s =>
      cases hm : d.makeFolders b.parent with
      | ok e => exact .inr ⟨e, f, rfl, by simp [hm], .inr hm⟩
      | error g => exact .inr ⟨d, f, rfl, by simp [hm], .inl rfl⟩

end Staged

namespace Staging

/-- Without a disk every operation counts as flushed. -/
theorem flushAll_of_disk_eq_none {t : Staging} (h : t.disk = none) (ops : List Staged) :
    t.flushAll ops =
      ({ t with flushed := t.flushed + ops.length }, .ok (ops.flatMap writtenBy)) := by
  induction ops generalizing t with
  | nil => simp [flushAll]
  | cons op ops ih =>
    rw [flushAll.eq_def]
    simp only [h]
    rw [ih rfl]
    simp [Except.map, Nat.add_assoc, Nat.add_comm 1]

/-- Operations that are carried out are flushed before the others. -/
theorem flushAll_append {t : Staging} {d e : Disk} {ops : List Staged} (h : t.disk = some d)
    (hops : Staged.performAll d ops = .ok e) (more : List Staged) :
    t.flushAll (ops ++ more) =
      let r := flushAll { t with disk := some e, flushed := t.flushed + ops.length } more
      (r.1, r.2.map (ops.flatMap writtenBy ++ ·)) := by
  induction ops generalizing t d with
  | nil =>
    obtain rfl : d = e := by simpa [Staged.performAll, pure, Except.pure] using hops
    have ht : t = { t with disk := some d, flushed := t.flushed + 0 } := by rw [← h]; rfl
    simp only [List.nil_append, List.length_nil, ← ht, List.flatMap_nil]
    cases hr : t.flushAll more with
    | mk u r => cases r <;> simp [Except.map]
  | cons op ops ih =>
    obtain ⟨d', hop, hrest⟩ := Staged.performAll_cons_inv hops
    have hatt : op.attempt d = (d', .ok ()) := by simp [Staged.attempt, hop]
    rw [List.cons_append, flushAll.eq_def]
    simp only [h, hatt]
    rw [ih (t := { t with disk := some d', flushed := t.flushed + 1 }) rfl hrest]
    have hcount : t.flushed + 1 + ops.length = t.flushed + (op :: ops).length := by
      rw [List.length_cons]
      omega
    simp only [hcount]
    generalize
      flushAll { t with disk := some e, flushed := t.flushed + (op :: ops).length } more = run
    obtain ⟨u, r⟩ := run
    cases r <;> simp [Except.map]

/-- What comes of flushing operations to a disk. -/
theorem flushAll_cases {t : Staging} {d : Disk} (h : t.disk = some d) (ops : List Staged) :
    (∃ e, Staged.performAll d ops = .ok e ∧
      t.flushAll ops = ({ t with disk := some e, flushed := t.flushed + ops.length },
        .ok (ops.flatMap writtenBy))) ∨
    ∃ done op rest e e' f, ops = done ++ op :: rest ∧
      Staged.performAll d done = .ok e ∧ op.attempt e = (e', .error f) ∧
      t.flushAll ops = ({ t with disk := some e', flushed := t.flushed + done.length },
        .error f.failure) := by
  induction ops generalizing t d with
  | nil => exact .inl ⟨d, rfl, by simp [flushAll, ← h]⟩
  | cons op ops ih =>
    rw [flushAll.eq_def]
    simp only [h]
    rcases Staged.attempt_cases d op with ⟨e, hop, hatt⟩ | ⟨e, f, hop, hatt, -⟩
    · simp only [hatt]
      rcases ih (t := { t with disk := some e, flushed := t.flushed + 1 }) rfl with
        ⟨e', hall, hflush⟩ | ⟨done, bad, rest, e₁, e₂, f, rfl, hall, hbad, hflush⟩
      · refine .inl ⟨e', by rw [Staged.performAll_cons_ok hop, hall], ?_⟩
        rw [hflush]
        simp [Except.map, Nat.add_assoc, Nat.add_comm 1]
      · refine .inr ⟨op :: done, bad, rest, e₁, e₂, f, rfl, ?_, hbad, ?_⟩
        · rw [Staged.performAll_cons_ok hop, hall]
        · rw [hflush]
          simp [Except.map, Nat.add_assoc, Nat.add_comm 1]
    · simp only [hatt]
      exact .inr ⟨[], op, ops, d, e, f, rfl, rfl, hatt, by simp⟩

theorem flush_of_disk_eq_none {t : Staging} (h : t.disk = none) :
    t.flush = ({ t with flushed := t.flushed + (t.log.drop t.flushed).length },
      .ok ((t.log.drop t.flushed).flatMap writtenBy)) :=
  flushAll_of_disk_eq_none h _

/-- What comes of a flush to a disk. -/
theorem flush_cases {t : Staging} {d : Disk} (h : t.disk = some d) :
    (∃ e, Staged.performAll d (t.log.drop t.flushed) = .ok e ∧
      t.flush = ({ t with
        disk := some e, flushed := t.flushed + (t.log.drop t.flushed).length },
        .ok ((t.log.drop t.flushed).flatMap writtenBy))) ∨
    ∃ done op rest e e' f, t.log.drop t.flushed = done ++ op :: rest ∧
      Staged.performAll d done = .ok e ∧ op.attempt e = (e', .error f) ∧
      t.flush = ({ t with disk := some e', flushed := t.flushed + done.length },
        .error f.failure) :=
  flushAll_cases h _

/-- What was carried out when a flush to a disk succeeds. -/
theorem flush_ok {t u : Staging} {d : Disk} {written : List Location} (h : t.disk = some d)
    (hflush : t.flush = (u, .ok written)) :
    ∃ e, Staged.performAll d (t.log.drop t.flushed) = .ok e ∧
      u = { t with disk := some e, flushed := t.flushed + (t.log.drop t.flushed).length } := by
  rcases flush_cases h with ⟨e, hall, heq⟩ | ⟨_, _, _, _, _, _, _, _, _, heq⟩
  · rw [heq] at hflush
    exact ⟨e, hall, (Prod.mk.inj hflush).1.symm⟩
  · rw [heq] at hflush
    cases (Prod.mk.inj hflush).2

/-- A flush stops at the first operation that fails. -/
theorem flush_stopped {t : Staging} {d e e' : Disk} {done rest : List Staged} {op : Staged}
    {f : Disk.Fault} (h : t.disk = some d) (hpending : t.log.drop t.flushed = done ++ op :: rest)
    (hdone : Staged.performAll d done = .ok e) (hstop : op.attempt e = (e', .error f)) :
    t.flush = ({ t with disk := some e', flushed := t.flushed + done.length },
      .error f.failure) := by
  unfold flush
  rw [hpending, flushAll_append h hdone, flushAll.eq_def]
  simp [hstop, Except.map]

/-- A flush goes through if all that is pending can be carried out. -/
theorem flush_done {t : Staging} {d e : Disk} (h : t.disk = some d)
    (hall : Staged.performAll d (t.log.drop t.flushed) = .ok e) :
    t.flush = ({ t with disk := some e, flushed := t.flushed + (t.log.drop t.flushed).length },
      .ok ((t.log.drop t.flushed).flatMap writtenBy)) := by
  unfold flush
  have happend := flushAll_append h hall []
  rw [List.append_nil] at happend
  rw [happend]
  simp [flushAll, Except.map]

/-- Only the disk and the count of flushed operations change. -/
theorem flush_fst (t : Staging) :
    ∃ disk n, t.flush.1 = { t with disk := disk, flushed := t.flushed + n } ∧
      n ≤ (t.log.drop t.flushed).length ∧ (t.disk = none → disk = none) := by
  cases hd : t.disk with
  | none =>
    refine ⟨none, (t.log.drop t.flushed).length, ?_, Nat.le_refl _, fun _ => rfl⟩
    rw [flush_of_disk_eq_none hd, ← hd]
  | some d =>
    rcases flush_cases hd with
      ⟨e, -, hflush⟩ | ⟨done, op, rest, e, e', f, hops, -, -, hflush⟩
    · exact ⟨some e, _, by rw [hflush], Nat.le_refl _, by simp⟩
    · refine ⟨some e', done.length, by rw [hflush], ?_, by simp⟩
      rw [hops, List.length_append]
      omega

/-- A flush that succeeds gives paths of what was pending. -/
theorem mem_of_flush {t u : Staging} {written : List Location} (h : t.flush = (u, .ok written))
    {p : Location} (hp : p ∈ written) : ∃ op ∈ u.log.drop t.flushed, p ∈ op.paths := by
  have hflush : u.log = t.log ∧ written = (t.log.drop t.flushed).flatMap writtenBy := by
    cases hd : t.disk with
    | none =>
      rw [flush_of_disk_eq_none hd] at h
      obtain ⟨rfl, hwritten⟩ := Prod.mk.inj h
      exact ⟨rfl, (Except.ok.inj hwritten).symm⟩
    | some d =>
      rcases flush_cases hd with
        ⟨e, -, hflush⟩ | ⟨done, op, rest, e, e', f, -, -, -, hflush⟩
      · rw [hflush] at h
        obtain ⟨rfl, hwritten⟩ := Prod.mk.inj h
        exact ⟨rfl, (Except.ok.inj hwritten).symm⟩
      · rw [hflush] at h
        cases (Prod.mk.inj h).2
  obtain ⟨hlog, rfl⟩ := hflush
  obtain ⟨op, hop, hmem⟩ := List.mem_flatMap.mp hp
  refine ⟨op, hlog ▸ hop, ?_⟩
  cases op with
  | write q s => exact hmem
  | rename a b s => cases hmem

theorem Coherent.flush {t : Staging} (ht : t.Coherent) : t.flush.1.Coherent := by
  obtain ⟨disk, n, hflush, hn, -⟩ := flush_fst t
  rw [hflush]
  refine ⟨ht.overlay_eq, ?_, ht.seen⟩
  have := ht.flushed_le
  rw [List.length_drop] at hn
  dsimp only
  omega

/-- The stagings that a program can get hold of. -/
inductive Reachable : Staging → Prop
  | «open» (d : Disk) : Reachable (.open d)
  | inMemory : Reachable .inMemory
  | write {t u : Staging} {p : Path} {s : String} :
      Reachable t → t.write p.location s = .ok u → Reachable u
  | rename {t : Staging} (a b : Path) :
      Reachable t → Reachable (t.rename a.location b.location).1
  | rollback {t : Staging} (m : Mark) : Reachable t → Reachable (t.rollback m)
  | flush {t : Staging} : Reachable t → Reachable t.flush.1
  /-- somebody else changed the directory -/
  | disturb {t : Staging} (d : Disk) :
      Reachable t → t.disk.isSome → Reachable { t with disk := some d }

/-- Every staging that a program can get hold of is coherent. -/
theorem Reachable.coherent {t : Staging} (h : t.Reachable) : t.Coherent := by
  induction h with
  | «open» d => exact coherent_open d
  | inMemory => exact coherent_inMemory
  | write _ hw ih => exact (grown_of_write hw).coherent ih
  | rename a b _ ih => exact (grown_rename _ a.location b.location).coherent ih
  | rollback m _ ih => exact ih.rollback m
  | flush _ ih => exact ih.flush
  | disturb d _ _ ih => exact ⟨ih.overlay_eq, ih.flushed_le, ih.seen⟩

end Staging

end Retarget
