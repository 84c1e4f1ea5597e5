import Retarget.Proofs.Disk.Frame
import Retarget.Proofs.Path.Spelling

/-!
# Staging and flushing together

`Staging.Advanced S t u` says that `u` is `t` with operations on paths in `S` staged
on top, and that any of what was pending may have been carried out.  The disk has
changed at the places of these operations only.

Whoever reads a path outside `S` sees the same, unless the disk is what decides and
the path leads to one of those places by another spelling.
-/

namespace Retarget.Staging

variable {S T : Location → Prop} {t u v : Staging} {d e : Disk} {x : Location}
  {n : List String}

/-- The places of the operations of `u` that were not carried out in `t`. -/
def Fresh (t u : Staging) (n : List String) : Prop :=
  ∃ op ∈ u.log.drop t.flushed, op.Touches n

/-- `u` is `t` with operations on paths in `S` staged on top and any number of
operations carried out. -/
structure Advanced (S : Location → Prop) (t u : Staging) : Prop where
  log : ∃ ops, u.log = t.log ++ ops ∧ ∀ op ∈ ops, ∀ p ∈ op.paths, S p
  flushed : t.flushed ≤ u.flushed
  disk : ∀ d, t.disk = some d → ∃ e, u.disk = some e ∧ Disk.Frame (t.Fresh u) d e

theorem Advanced.refl (S : Location → Prop) (t : Staging) : Advanced S t t :=
  ⟨⟨[], by simp⟩, Nat.le_refl _, fun d hd => ⟨d, hd, .refl _ d⟩⟩

theorem Advanced.mono (h : Advanced S t u) (sub : ∀ p, S p → T p) : Advanced T t u where
  log := by
    obtain ⟨ops, hops, hS⟩ := h.log
    exact ⟨ops, hops, fun op hop p hp => sub p (hS op hop p hp)⟩
  flushed := h.flushed
  disk := h.disk

/-- What was not carried out at first is still in the log. -/
theorem Advanced.mem_drop (h : Advanced S t u) {k : Nat} {op : Staged}
    (hop : op ∈ t.log.drop k) : op ∈ u.log.drop k := by
  obtain ⟨ops, hops, -⟩ := h.log
  rw [hops, List.drop_append]
  exact List.mem_append_left _ hop

theorem Advanced.trans (h : Advanced S t u) (k : Advanced S u v) : Advanced S t v where
  log := by
    obtain ⟨ops, hops, hS⟩ := h.log
    obtain ⟨more, hmore, hT⟩ := k.log
    refine ⟨ops ++ more, by rw [hmore, hops, List.append_assoc], ?_⟩
    intro op hop
    exact (List.mem_append.mp hop).elim (hS op) (hT op)
  flushed := Nat.le_trans h.flushed k.flushed
  disk := by
    intro d hd
    obtain ⟨e, he, hframe⟩ := h.disk d hd
    obtain ⟨e', he', hframe'⟩ := k.disk e he
    refine ⟨e', he', (hframe.mono ?_).trans (hframe'.mono ?_)⟩
    · rintro n ⟨op, hop, hn⟩
      exact ⟨op, k.mem_drop hop, hn⟩
    · rintro n ⟨op, hop, hn⟩
      exact ⟨op, List.drop_subset_drop_left _ h.flushed hop, hn⟩

/-- Growing is advancing without carrying anything out. -/
theorem Grown.advanced (h : Grown S t u) : Advanced S t u :=
  ⟨h.log, Nat.le_of_eq h.flushed.symm, fun d hd => ⟨d, h.disk.trans hd, .refl _ d⟩⟩

/-- A flush advances, even if it fails. -/
theorem advanced_flush (S : Location → Prop) (t : Staging) : Advanced S t t.flush.1 := by
  cases hd : t.disk with
  | none =>
    rw [flush_of_disk_eq_none hd]
    exact ⟨⟨[], by simp⟩, Nat.le_add_right _ _, fun d hd' => by simp [hd] at hd'⟩
  | some d =>
    rcases flush_cases hd with
      ⟨e, hall, hflush⟩ | ⟨done, op, rest, e, e', f, hops, hdone, hfails, hflush⟩
    · rw [hflush]
      refine ⟨⟨[], by simp⟩, Nat.le_add_right _ _, fun d' hd' => ⟨e, rfl, ?_⟩⟩
      obtain rfl := Option.some.inj (hd.symm.trans hd')
      exact Staged.frame_performAll hall
    · rw [hflush]
      refine ⟨⟨[], by simp⟩, Nat.le_add_right _ _, fun d' hd' => ⟨e', rfl, ?_⟩⟩
      obtain rfl := Option.some.inj (hd.symm.trans hd')
      refine ((Staged.frame_performAll hdone).mono ?_).trans
        ((Staged.frame_attempt_error hfails).mono fun _ => False.elim)
      rintro n ⟨op', hop', hn⟩
      refine ⟨op', ?_, hn⟩
      dsimp only
      rw [hops]
      exact List.mem_append_left _ hop'

/-- Somebody else may have changed the same places. -/
theorem Advanced.disturb (h : Advanced S t u) (hu : u.disk = some d)
    (hframe : Disk.Frame (t.Fresh u) d e) : Advanced S t { u with disk := some e } where
  log := h.log
  flushed := h.flushed
  disk := by
    intro d₀ hd₀
    obtain ⟨d', hd', hframe'⟩ := h.disk d₀ hd₀
    obtain rfl := Option.some.inj (hu.symm.trans hd')
    exact ⟨e, rfl, hframe'.trans hframe⟩

/-- Places are fresh because of what was pending or because of what was staged. -/
theorem Advanced.fresh (h : Advanced S t u) (hn : t.Fresh u n) :
    t.Fresh t n ∨ ∃ p, S p ∧ Location.resolve p = some n := by
  obtain ⟨ops, hops, hS⟩ := h.log
  obtain ⟨op, hop, p, hp, hpn⟩ := hn
  rw [hops, List.drop_append] at hop
  rcases List.mem_append.mp hop with hop | hop
  · exact .inl ⟨op, hop, p, hp, hpn⟩
  · exact .inr ⟨p, hS op (List.mem_of_mem_drop hop) p hp, hpn⟩

/-- Taking back to where nothing more was carried out. -/
theorem Advanced.rollback (h : Advanced S t u) (ht : t.Coherent) (hflushed : ¬t.flushed < u.flushed)
    (hdisk : ∀ d, t.disk = some d → ∃ e, u.disk = some e ∧ Disk.Frame (fun _ => False) d e) :
    Advanced T t (u.rollback t.mark) := by
  obtain ⟨ops, hops, -⟩ := h.log
  have hkeep : max t.mark.length u.flushed = t.log.length := by
    have := ht.flushed_le
    have := h.flushed
    simp only [mark]
    omega
  have hlog : (u.rollback t.mark).log = t.log := by
    rw [rollback_log, hkeep, hops, List.take_left]
  refine ⟨⟨[], by simp [hlog]⟩, by rw [rollback_flushed]; exact h.flushed, fun d hd => ?_⟩
  obtain ⟨e, he, hframe⟩ := hdisk d hd
  exact ⟨e, (rollback_disk _ _).trans he, hframe.mono fun _ => False.elim⟩

/-- The paths of operations that a program stages are well spelled. -/
theorem Reachable.wellSpelled (h : t.Reachable) :
    ∀ op ∈ t.log, ∀ p ∈ op.paths, p.WellSpelled := by
  have grown : ∀ {S : Location → Prop} {t u : Staging}, Grown S t u →
      (∀ p, S p → p.WellSpelled) → (∀ op ∈ t.log, ∀ p ∈ op.paths, p.WellSpelled) →
      ∀ op ∈ u.log, ∀ p ∈ op.paths, p.WellSpelled := by
    intro S t u hgrown hS ht op hop p hp
    obtain ⟨ops, hops, hpaths⟩ := hgrown.log
    rw [hops] at hop
    rcases List.mem_append.mp hop with hop | hop
    · exact ht op hop p hp
    · exact hS p (hpaths op hop p hp)
  induction h with
  | «open» d => simp [Staging.open]
  | inMemory => simp [Staging.inMemory]
  | @write t u p s _ hw ih =>
    refine grown (grown_of_write hw) ?_ ih
    rintro q rfl
    exact p.wellSpelled_location
  | rename a b _ ih =>
    refine grown (grown_rename _ a.location b.location) ?_ ih
    rintro q (rfl | rfl)
    · exact a.wellSpelled_location
    · exact b.wellSpelled_location
  | rollback m _ ih =>
    intro op hop
    rw [rollback_log] at hop
    exact ih op (List.mem_of_mem_take hop)
  | @flush t _ ih =>
    obtain ⟨disk, n, hfst, -, -⟩ := t.flush_fst
    rw [hfst]
    exact ih
  | disturb d _ _ ih => exact ih

/-! ## Reading -/

theorem Advanced.overlay (h : Advanced S t u) (ht : t.Coherent) (hu : u.Coherent)
    (hx : ¬S x) : u.overlay.get? x = t.overlay.get? x := by
  obtain ⟨ops, hops, hS⟩ := h.log
  rw [hu.overlay_eq, ht.overlay_eq, hops]
  exact Staged.get?_replay_append_of_not_mem _ fun op hop hmem => hx (hS op hop x hmem)

/-- Reading from a disk is reading the file that a path leads to. -/
theorem readDisk_eq (hd : t.disk = some d) (x : Location) :
    t.readDisk x = match d.file? x with
      | none => .ok none
      | some (.text s) => .ok (some s)
      | some (.raw _) => .error Disk.Fault.notText.failure := by
  unfold readDisk
  rw [hd]
  cases hfile : d.file? x with
  | none =>
    have hno : d.isFile x = false := by
      rw [Bool.eq_false_iff]
      intro hyes
      obtain ⟨n, c, hn, hc⟩ := Disk.isFile_iff.mp hyes
      have := Disk.file?_eq_some.mpr ⟨n, hn, hc⟩
      simp [hfile] at this
    simp [hno]
  | some c =>
    obtain ⟨n, hn, hc⟩ := Disk.file?_eq_some.mp hfile
    have hyes : d.isFile x = true := Disk.isFile_iff.mpr ⟨n, c, hn, hc⟩
    have hcontent : d.content x = .ok c := by
      simp [Disk.content, hn, Disk.fileAt?_eq_some.mp hc, bind, Except.bind]
    cases c with
    | text s => simp [hyes, Disk.readText, hcontent, bind, Except.bind]
    | raw b => simp [hyes, Disk.readText, hcontent, bind, Except.bind]

/-- A path that nothing was staged on reads the same, if it was staged on before, or if
nothing was carried out, or if it leads to none of the places. -/
theorem Advanced.read (h : Advanced S t u) (ht : t.Coherent) (hu : u.Coherent) (hx : ¬S x)
    (hdisk : t.overlay.has x = true ∨ u.disk = t.disk ∨
      ∃ d, t.disk = some d ∧ d.Rooted ∧ d.Avoids (t.Fresh u) x) :
    u.read x = t.read x := by
  have hoverlay := h.overlay ht hu hx
  unfold Staging.read
  rw [hoverlay]
  cases hstate : t.overlay.get? x with
  | some state => cases state <;> rfl
  | none =>
    have hsame : u.readDisk x = t.readDisk x := by
      rcases hdisk with hhas | hsame | ⟨d, hd, hrooted, havoids⟩
      · simp [OrderedMap.has, hstate] at hhas
      · simp only [readDisk, hsame]
      · obtain ⟨e, he, hframe⟩ := h.disk d hd
        rw [readDisk_eq he, readDisk_eq hd, hframe.file? hrooted havoids]
    simp only [hsame]

end Retarget.Staging
