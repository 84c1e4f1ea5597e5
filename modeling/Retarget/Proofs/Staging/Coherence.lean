import Retarget.Staging

/-!
# Coherent stagings

A staging is *coherent* when its overlay is its log replayed, no more operations
are on disk than there are in the log, and every path that the log touches was
looked at before it was touched.  Every staging that can be reached is coherent.

`Staging.original` is what a path held before anything touched it.  Staging more
operations does not change it, which is what makes the order in which paths are
first looked at irrelevant.
-/

namespace Retarget

namespace Staged

/-- The paths that an operation touches. -/
def paths : Staged → List Location
  | write p _ => [p]
  | rename a b _ => [a, b]

/-- An operation leaves all other paths alone. -/
theorem get?_apply_of_not_mem {op : Staged} {p : Location} (o : Overlay)
    (h : p ∉ op.paths) :
    OrderedMap.get? (op.apply o) p = OrderedMap.get? o p := by
  cases op with
  | write q s =>
    have hq : p ≠ q := by simpa [paths] using h
    simp [apply, OrderedMap.get?_insert, hq]
  | rename a b s =>
    obtain ⟨ha, hb⟩ : p ≠ a ∧ p ≠ b := by simpa [paths] using h
    simp [apply, OrderedMap.get?_insert, ha, hb]

/-- The overlay knows the paths of an operation and those it knew before. -/
theorem has_apply (op : Staged) (o : Overlay) (p : Location) :
    OrderedMap.has (op.apply o) p = (decide (p ∈ op.paths) || OrderedMap.has o p) := by
  cases op with
  | write q s => simp [apply, paths, OrderedMap.has_insert]
  | rename a b s =>
    simp [apply, paths, OrderedMap.has_insert, Bool.or_left_comm, Bool.or_assoc]

/-- Operations leave the paths alone that none of them touches. -/
theorem get?_foldl_apply_of_not_mem {ops : List Staged} {p : Location} (o : Overlay)
    (h : ∀ op ∈ ops, p ∉ op.paths) :
    OrderedMap.get? (ops.foldl apply o) p = OrderedMap.get? o p := by
  induction ops generalizing o with
  | nil => rfl
  | cons op ops ih =>
    rw [List.foldl_cons, ih _ fun q hq => h q (List.mem_cons_of_mem _ hq)]
    exact get?_apply_of_not_mem o (h op List.mem_cons_self)

/-- A longer log is replayed on top of its beginning. -/
theorem replay_append (log ops : List Staged) :
    replay (log ++ ops) = ops.foldl apply (replay log) :=
  List.foldl_append

/-- What a path holds does not change when the log grows by operations on
other paths. -/
theorem get?_replay_append_of_not_mem {ops : List Staged} {p : Location}
    (log : List Staged) (h : ∀ op ∈ ops, p ∉ op.paths) :
    OrderedMap.get? (replay (log ++ ops)) p = OrderedMap.get? (replay log) p := by
  rw [replay_append]
  exact get?_foldl_apply_of_not_mem _ h

/-- The overlay of a log knows exactly the paths that the log touches. -/
theorem has_replay_iff {log : List Staged} {p : Location} :
    OrderedMap.has (replay log) p = true ↔ ∃ op ∈ log, p ∈ op.paths := by
  have grow : ∀ (ops : List Staged) (o : Overlay),
      OrderedMap.has (ops.foldl apply o) p = true ↔
        (∃ op ∈ ops, p ∈ op.paths) ∨ OrderedMap.has o p = true := by
    intro ops
    induction ops with
    | nil => simp
    | cons op ops ih =>
      intro o
      rw [List.foldl_cons, ih, has_apply]
      simp only [Bool.or_eq_true, decide_eq_true_eq, List.mem_cons, exists_eq_or_imp]
      rw [or_left_comm, or_assoc]
  simpa [replay, OrderedMap.has, OrderedMap.get?] using grow log []

end Staged

namespace Staging

/-- What a path held before it was first touched; a path that nothing touched
holds it still. -/
def original (t : Staging) (p : Location) : Except Failure (Option String) :=
  match t.firstSeen.get? p with
  | some state => .ok state
  | none =>
    match t.overlay.get? p with
    | some state => .ok state
    | none => t.readDisk p

/-- The log, the overlay and the notes of a staging fit together. -/
structure Coherent (t : Staging) : Prop where
  overlay_eq : t.overlay = Staged.replay t.log
  flushed_le : t.flushed ≤ t.log.length
  seen : ∀ op ∈ t.log, ∀ p ∈ op.paths, t.firstSeen.has p = true

theorem coherent_open (d : Disk) : (Staging.open d).Coherent :=
  ⟨rfl, Nat.le_refl _, by simp [Staging.open]⟩

theorem coherent_inMemory : inMemory.Coherent :=
  ⟨rfl, Nat.le_refl _, by simp [inMemory]⟩

/-! ## Noting what a path holds -/

/-- A path can be noted exactly when what it held is readable. -/
theorem remember_eq (t : Staging) (p : Location) :
    t.remember p = (t.original p).map fun state =>
      if t.firstSeen.has p then t
      else { t with firstSeen := t.firstSeen.insert p state } := by
  unfold remember original OrderedMap.has
  cases hf : OrderedMap.get? t.firstSeen p with
  | some state => simp [Except.map]
  | none =>
    cases ho : OrderedMap.get? t.overlay p with
    | some state => simp [Except.map]
    | none => cases t.readDisk p <;> simp [Except.map]

/-- Noting a path changes nothing but the notes, and what paths held stays. -/
theorem remember_ok {t u : Staging} {p : Location} (h : t.remember p = .ok u) :
    (∃ seen, u = { t with firstSeen := seen }) ∧ (∀ q, u.original q = t.original q) ∧
      u.firstSeen.has p = true ∧
      ∀ q, t.firstSeen.has q = true → u.firstSeen.has q = true := by
  rw [remember_eq] at h
  cases hp : t.original p with
  | error f => simp [hp, Except.map] at h
  | ok state =>
    simp only [hp, Except.map, Except.ok.injEq] at h
    by_cases hs : t.firstSeen.has p = true
    · obtain rfl : t = u := by simpa [hs] using h
      exact ⟨⟨t.firstSeen, rfl⟩, fun _ => rfl, hs, fun _ hq => hq⟩
    · rw [if_neg hs] at h
      subst h
      refine ⟨⟨_, rfl⟩, ?_, ?_, ?_⟩
      · intro q
        by_cases hq : q = p
        · subst hq
          simp [original, OrderedMap.get?_insert] at hp ⊢
          exact hp.symm
        · simp [original, OrderedMap.get?_insert, hq, readDisk]
      · simp [OrderedMap.has_insert]
      · intro q hq
        simp [OrderedMap.has_insert, hq]

/-- An operation on noted paths does not change what paths held at first. -/
theorem original_stage {t : Staging} {op : Staged}
    (h : ∀ p ∈ op.paths, t.firstSeen.has p = true) (q : Location) :
    (t.stage op).original q = t.original q := by
  unfold original stage
  cases hf : OrderedMap.get? t.firstSeen q with
  | some state => simp
  | none =>
    have hq : q ∉ op.paths := by
      intro hq
      have hseen := h q hq
      simp [OrderedMap.has, hf] at hseen
    simp [Staged.get?_apply_of_not_mem _ hq, readDisk]

/-- Staging an operation on noted paths keeps a staging coherent. -/
theorem Coherent.stage {t : Staging} (ht : t.Coherent) {op : Staged}
    (h : ∀ p ∈ op.paths, t.firstSeen.has p = true) : (t.stage op).Coherent where
  overlay_eq := by
    simp [Staging.stage, ht.overlay_eq, Staged.replay_append]
  flushed_le := by
    have := ht.flushed_le
    simp only [Staging.stage, List.length_append, List.length_singleton]
    omega
  seen := by
    intro op' hop p hp
    rcases List.mem_append.mp hop with hop | hop
    · exact ht.seen op' hop p hp
    · obtain rfl := List.mem_singleton.mp hop
      exact h p hp

end Staging

end Retarget
