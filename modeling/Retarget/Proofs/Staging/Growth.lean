import Retarget.Proofs.Staging.Coherence

/-!
# Growing and taking back

`Staging.Grown S t u` says that `u` is `t` with operations staged on top that
touch paths in `S` only and of which none was flushed.  A write and a rename grow
a staging whether they succeed or not, and growth composes, so whole programs
that only stage are described by it.

Taking a grown staging back to where it started gives a staging that agrees with
the one it started from: same disk, same log, same overlay, and the same memory of
what paths held at first.  Only which paths have been looked at may differ.
-/

namespace Retarget.Staging

/-! ## Agreement -/

/-- Two stagings that nothing but their notes tells apart. -/
structure Agree (t u : Staging) : Prop where
  disk : t.disk = u.disk
  overlay : t.overlay = u.overlay
  log : t.log = u.log
  flushed : t.flushed = u.flushed
  original : ∀ p, t.original p = u.original p

variable {t u v : Staging}

theorem Agree.refl (t : Staging) : t.Agree t :=
  ⟨rfl, rfl, rfl, rfl, fun _ => rfl⟩

theorem Agree.symm (h : t.Agree u) : u.Agree t :=
  ⟨h.disk.symm, h.overlay.symm, h.log.symm, h.flushed.symm, fun p => (h.original p).symm⟩

theorem Agree.trans (h : t.Agree u) (k : u.Agree v) : t.Agree v :=
  ⟨h.disk.trans k.disk, h.overlay.trans k.overlay, h.log.trans k.log,
    h.flushed.trans k.flushed, fun p => (h.original p).trans (k.original p)⟩

theorem Agree.readDisk (h : t.Agree u) (p : Location) : t.readDisk p = u.readDisk p := by
  simp only [Staging.readDisk, h.disk]

theorem Agree.read (h : t.Agree u) (p : Location) : t.read p = u.read p := by
  simp only [Staging.read, h.overlay, h.readDisk]

theorem Agree.exists_ (h : t.Agree u) (p : Location) : t.exists_ p = u.exists_ p := by
  simp only [Staging.exists_, h.overlay, h.disk]

theorem Agree.pending (h : t.Agree u) : t.pending = u.pending := by
  simp only [Staging.pending, h.flushed, h.log]

/-- Noting a path keeps a staging in agreement with itself. -/
theorem agree_of_remember {p : Location} (h : t.remember p = .ok u) : t.Agree u := by
  obtain ⟨⟨seen, rfl⟩, original, -⟩ := remember_ok h
  exact ⟨rfl, rfl, rfl, rfl, fun q => (original q).symm⟩

theorem coherent_of_remember {p : Location} (ht : t.Coherent) (h : t.remember p = .ok u) :
    u.Coherent := by
  obtain ⟨⟨seen, rfl⟩, -, -, keeps⟩ := remember_ok h
  exact ⟨ht.overlay_eq, ht.flushed_le, fun op hop p hp => keeps p (ht.seen op hop p hp)⟩

/-! ## Growth -/

/-- `u` is `t` with operations on paths in `S` staged on top. -/
structure Grown (S : Location → Prop) (t u : Staging) : Prop where
  disk : u.disk = t.disk
  flushed : u.flushed = t.flushed
  log : ∃ ops, u.log = t.log ++ ops ∧ ∀ op ∈ ops, ∀ p ∈ op.paths, S p
  original : ∀ p, u.original p = t.original p
  coherent : t.Coherent → u.Coherent

variable {S T : Location → Prop}

theorem Grown.refl (S : Location → Prop) (t : Staging) : Grown S t t :=
  ⟨rfl, rfl, ⟨[], by simp⟩, fun _ => rfl, id⟩

theorem Grown.trans (h : Grown S t u) (k : Grown S u v) : Grown S t v where
  disk := k.disk.trans h.disk
  flushed := k.flushed.trans h.flushed
  log := by
    obtain ⟨ops, hops, hS⟩ := h.log
    obtain ⟨more, hmore, hT⟩ := k.log
    refine ⟨ops ++ more, by rw [hmore, hops, List.append_assoc], ?_⟩
    intro op hop
    exact (List.mem_append.mp hop).elim (hS op) (hT op)
  original := fun p => (k.original p).trans (h.original p)
  coherent := fun ht => k.coherent (h.coherent ht)

theorem Grown.mono (h : Grown S t u) (sub : ∀ p, S p → T p) : Grown T t u where
  disk := h.disk
  flushed := h.flushed
  log := by
    obtain ⟨ops, hops, hS⟩ := h.log
    exact ⟨ops, hops, fun op hop p hp => sub p (hS op hop p hp)⟩
  original := h.original
  coherent := h.coherent

/-- Noting paths is growth by no operation. -/
theorem Grown.of_agree (h : t.Agree u) (hc : t.Coherent → u.Coherent) : Grown S t u :=
  ⟨h.disk.symm, h.flushed.symm, ⟨[], by simp [h.log]⟩, fun p => (h.original p).symm, hc⟩

theorem grown_of_remember {p : Location} (h : t.remember p = .ok u) : Grown S t u :=
  .of_agree (agree_of_remember h) fun ht => coherent_of_remember ht h

/-- Staging one operation on noted paths. -/
theorem grown_stage {op : Staged} (seen : ∀ p ∈ op.paths, t.firstSeen.has p = true)
    (hS : ∀ p ∈ op.paths, S p) : Grown S t (t.stage op) where
  disk := rfl
  flushed := rfl
  log := ⟨[op], rfl, by simpa using hS⟩
  original := original_stage seen
  coherent := fun ht => ht.stage seen

theorem grown_of_write {p : Location} {s : String} (h : t.write p s = .ok u) :
    Grown (· = p) t u := by
  unfold write at h
  cases hr : t.remember p with
  | error f => simp [hr] at h
  | ok v =>
    simp only [hr, Except.ok.injEq] at h
    subst h
    have hseen := (remember_ok hr).2.2.1
    refine (grown_of_remember hr).trans (grown_stage ?_ ?_)
    · simpa [Staged.paths] using hseen
    · simp [Staged.paths]

theorem grown_relink (t : Staging) (a b : Location) (s : String) :
    Grown (fun p => p = a ∨ p = b) t (t.relink a b s).1 := by
  unfold relink
  cases ha : t.remember a with
  | error f => exact Grown.refl _ t
  | ok u =>
    have hu := grown_of_remember (S := fun p => p = a ∨ p = b) ha
    cases hb : u.remember b with
    | error f => simpa [hb] using hu
    | ok v =>
      simp only [hb]
      have hv := remember_ok hb
      have seen : ∀ p ∈ (Staged.rename a b s).paths, v.firstSeen.has p = true := by
        simpa [Staged.paths] using ⟨hv.2.2.2 a (remember_ok ha).2.2.1, hv.2.2.1⟩
      refine (hu.trans (grown_of_remember hb)).trans (grown_stage seen ?_)
      simp [Staged.paths]

theorem grown_rename (t : Staging) (a b : Location) :
    Grown (fun p => p = a ∨ p = b) t (t.rename a b).1 := by
  unfold rename
  split
  · exact Grown.refl _ t
  · split
    · exact Grown.refl _ t
    · exact grown_relink t a b _

/-! ## What is staged -/

/-- A write that succeeds is staged. -/
theorem write_ok {p : Location} {s : String} (h : t.write p s = .ok u) :
    u.disk = t.disk ∧ u.flushed = t.flushed ∧ u.log = t.log ++ [.write p s] := by
  unfold write at h
  split at h
  · cases h
  · next v hv =>
    obtain rfl : v.stage (.write p s) = u := by simpa using h
    obtain ⟨seen, rfl⟩ := (remember_ok hv).1
    exact ⟨rfl, rfl, rfl⟩

/-- A rename is staged with the text of its old path, or it only notes paths. -/
theorem rename_cases (t : Staging) (a b : Location) :
    (∃ u held, t.rename a b = (u, .ok ()) ∧ t.exists_ b = false ∧ t.read a = .ok held ∧
      u.disk = t.disk ∧ u.flushed = t.flushed ∧ u.log = t.log ++ [.rename a b held]) ∨
    ∃ u f, t.rename a b = (u, .error f) ∧ t.Agree u := by
  cases hb : t.exists_ b with
  | true => exact .inr ⟨t, .archiveExists b.path, by simp [rename, hb], .refl t⟩
  | false =>
    cases ha : t.read a with
    | error f => exact .inr ⟨t, f, by simp [rename, hb, ha], .refl t⟩
    | ok held =>
      have hrename : t.rename a b = t.relink a b held := by simp [rename, hb, ha]
      rw [hrename]
      cases hv : t.remember a with
      | error f => exact .inr ⟨t, f, by simp [relink, hv], .refl t⟩
      | ok v =>
        cases hv' : v.remember b with
        | error f => exact .inr ⟨v, f, by simp [relink, hv, hv'], agree_of_remember hv⟩
        | ok v' =>
          have hstaged : t.relink a b held = (v'.stage (.rename a b held), .ok ()) := by
            simp [relink, hv, hv']
          obtain ⟨seen, rfl⟩ := (remember_ok hv).1
          obtain ⟨seen', rfl⟩ := (remember_ok hv').1
          exact .inl ⟨_, held, hstaged, rfl, rfl, rfl, rfl, rfl⟩

theorem rename_ok {a b : Location} (h : t.rename a b = (u, .ok ())) :
    t.exists_ b = false ∧ u.disk = t.disk ∧ u.flushed = t.flushed ∧
      ∃ held, t.read a = .ok held ∧ u.log = t.log ++ [.rename a b held] := by
  rcases t.rename_cases a b with ⟨v, held, hv, hfree, hread, hdisk, hflushed, hlog⟩ | ⟨v, f, hv, -⟩
  · obtain rfl : v = u := by rw [h] at hv; exact (Prod.mk.inj hv).1.symm
    exact ⟨hfree, hdisk, hflushed, held, hread, hlog⟩
  · rw [h] at hv
    cases (Prod.mk.inj hv).2

/-! ## Taking back -/

/-- A rollback keeps the log up to the mark, or up to what was flushed if that is more. -/
theorem rollback_eq (t : Staging) (m : Mark) :
    t.rollback m = t ∧ t.log.length ≤ max m.length t.flushed ∨
      t.rollback m = { t with
        log := t.log.take (max m.length t.flushed)
        overlay := Staged.replay (t.log.take (max m.length t.flushed)) } := by
  unfold Staging.rollback
  dsimp only
  split
  · next hle => exact .inl ⟨rfl, hle⟩
  · exact .inr rfl

theorem rollback_log (t : Staging) (m : Mark) :
    (t.rollback m).log = t.log.take (max m.length t.flushed) := by
  rcases t.rollback_eq m with ⟨heq, hle⟩ | heq
  · rw [heq, List.take_of_length_le hle]
  · rw [heq]

theorem rollback_flushed (t : Staging) (m : Mark) : (t.rollback m).flushed = t.flushed := by
  rcases t.rollback_eq m with ⟨heq, -⟩ | heq
  · rw [heq]
  · rw [heq]

theorem rollback_disk (t : Staging) (m : Mark) : (t.rollback m).disk = t.disk := by
  rcases t.rollback_eq m with ⟨heq, -⟩ | heq
  · rw [heq]
  · rw [heq]

theorem rollback_firstSeen (t : Staging) (m : Mark) :
    (t.rollback m).firstSeen = t.firstSeen := by
  rcases t.rollback_eq m with ⟨heq, -⟩ | heq
  · rw [heq]
  · rw [heq]

theorem Coherent.rollback (ht : t.Coherent) (m : Mark) : (t.rollback m).Coherent := by
  rcases t.rollback_eq m with ⟨heq, -⟩ | heq
  · rw [heq]
    exact ht
  · rw [heq]
    refine ⟨rfl, ?_, fun op hop => ht.seen op (List.mem_of_mem_take hop)⟩
    have hflushed := ht.flushed_le
    simp only [List.length_take]
    omega

/-- What was staged on top is taken back by a rollback to where it began. -/
theorem Grown.rollback (h : Grown S t u) (ht : t.Coherent) : (u.rollback t.mark).Agree t := by
  obtain ⟨ops, hops, -⟩ := h.log
  have hu := h.coherent ht
  have hlog : (u.rollback t.mark).log = t.log := by
    have hkeep : max t.mark.length u.flushed = t.log.length := by
      rw [h.flushed]
      exact Nat.max_eq_left ht.flushed_le
    rw [rollback_log, hkeep, hops, List.take_left]
  have hoverlay : (u.rollback t.mark).overlay = t.overlay := by
    rw [(hu.rollback _).overlay_eq, hlog, ht.overlay_eq]
  refine ⟨(rollback_disk _ _).trans h.disk, hoverlay, hlog,
    (rollback_flushed _ _).trans h.flushed, fun p => ?_⟩
  rw [← h.original p]
  unfold Staging.original
  rw [rollback_firstSeen, hoverlay]
  cases hp : u.firstSeen.get? p with
  | some state => rfl
  | none =>
    -- a path that was not noted is in no log, so no overlay knows it
    have unknown : ∀ log : List Staged, (∀ op ∈ log, op ∈ u.log) →
        (Staged.replay log).get? p = none := by
      intro log sub
      rw [← Option.not_isSome_iff_eq_none]
      intro hsome
      obtain ⟨op, hop, hmem⟩ := Staged.has_replay_iff.mp hsome
      have hseen := hu.seen op (sub op hop) p hmem
      simp [OrderedMap.has, hp] at hseen
    have before := unknown t.log fun op hop => by rw [hops]; exact List.mem_append_left _ hop
    have after := unknown u.log fun _ hop => hop
    simp [ht.overlay_eq, before, hu.overlay_eq, after, Staging.readDisk, rollback_disk]

end Retarget.Staging
