import Retarget.Proofs.Staging.Agreement

/-!
# Stagings that show the same files

`Staging.Alike S t u` says that two stagings cannot be told apart by looking at paths in
`S`: the same files are there, they read the same, and they held the same at first.
What else the stagings hold, which disk is below them and what was staged before may
differ.  An operation on paths in `S` comes out alike on both.

What a path shows is decided by the last operation on it, or by the disk if there is
none, so a staging can be looked at as it was when its log was shorter: `Staging.asOf`.
-/

namespace Retarget

namespace Staged

/-- What operations leave at a path, or what was there if they leave it alone. -/
theorem get?_foldl_apply (ops : List Staged) (o : Overlay) (x : Location) :
    OrderedMap.get? (ops.foldl apply o) x =
      (OrderedMap.get? (replay ops) x).or (OrderedMap.get? o x) := by
  have single (op : Staged) (o : Overlay) : OrderedMap.get? (op.apply o) x =
      (OrderedMap.get? (op.apply []) x).or (OrderedMap.get? o x) := by
    cases op with
    | write p s =>
      simp only [apply, OrderedMap.get?_insert]
      split
      · rfl
      · rfl
    | rename a b s =>
      simp only [apply, OrderedMap.get?_insert]
      split
      · rfl
      · split
        · rfl
        · rfl
  unfold replay
  induction ops generalizing o with
  | nil => rfl
  | cons op ops ih =>
    rw [List.foldl_cons, List.foldl_cons, ih, ih (op.apply []), single op o, Option.or_assoc]

end Staged

namespace Staging

variable {S T : Location → Prop} {t u v : Staging} {x : Location} {f : Failure}

/-! ## Looking at paths -/

/-- What a path shows after an operation was staged. -/
theorem read_stage (t : Staging) (op : Staged) (x : Location) :
    (t.stage op).read x = match OrderedMap.get? (op.apply []) x with
      | some (some s) => .ok s
      | some none => .error (.fileNotFound x.path)
      | none => t.read x := by
  have hget := Staged.get?_foldl_apply [op] t.overlay x
  simp only [List.foldl_cons, List.foldl_nil, Staged.replay] at hget
  simp only [read, stage, hget]
  rcases OrderedMap.get? (op.apply []) x with _ | _ | s
  · rfl
  · rfl
  · rfl

/-- The files that are there after an operation was staged. -/
theorem exists_stage (t : Staging) (op : Staged) (x : Location) :
    (t.stage op).exists_ x = match OrderedMap.get? (op.apply []) x with
      | some state => state.isSome
      | none => t.exists_ x := by
  have hget := Staged.get?_foldl_apply [op] t.overlay x
  simp only [List.foldl_cons, List.foldl_nil, Staged.replay] at hget
  simp only [exists_, stage, hget]
  rcases OrderedMap.get? (op.apply []) x with _ | state
  · rfl
  · rfl

/-- The staging as it was when its log was another one. -/
def asOf (t : Staging) (log : List Staged) : Staging :=
  { t with log := log, overlay := Staged.replay log }

/-- The log and the disk of a coherent staging decide what a path shows. -/
theorem Coherent.read_asOf (hu : u.Coherent) (hdisk : u.disk = t.disk) (x : Location) :
    (t.asOf u.log).read x = u.read x := by
  simp only [read, readDisk, asOf, hu.overlay_eq, hdisk]

/-- Operations decide what their paths show. -/
theorem read_asOf_append (t : Staging) (log ops : List Staged) (x : Location) :
    (t.asOf (log ++ ops)).read x = match OrderedMap.get? (Staged.replay ops) x with
      | some (some s) => .ok s
      | some none => .error (.fileNotFound x.path)
      | none => (t.asOf log).read x := by
  simp only [asOf, read, Staged.replay_append, Staged.get?_foldl_apply ops]
  rcases OrderedMap.get? (Staged.replay ops) x with _ | _ | s
  · rfl
  · rfl
  · rfl

/-! ## Stagings alike -/

/-- Two stagings that show the same at paths in `S`. -/
structure Alike (S : Location → Prop) (t u : Staging) : Prop where
  read : ∀ x, S x → t.read x = u.read x
  exists_ : ∀ x, S x → t.exists_ x = u.exists_ x
  original : ∀ x, S x → t.original x = u.original x

/-- The same result after the same operations were staged, and still alike. -/
structure AlikeRun {α : Type} (S : Location → Prop) (t u : Staging) (a b : Staging × α) :
    Prop where
  alike : Alike S a.1 b.1
  result : a.2 = b.2
  log : ∃ ops, a.1.log = t.log ++ ops ∧ b.1.log = u.log ++ ops

/-- Both fail alike, or the same operations were staged on both. -/
inductive AlikeResult (S : Location → Prop) (t u : Staging) :
    Except Failure Staging → Except Failure Staging → Prop
  | ok {t' u' : Staging} (alike : Alike S t' u')
      (log : ∃ ops, t'.log = t.log ++ ops ∧ u'.log = u.log ++ ops) :
      AlikeResult S t u (.ok t') (.ok u')
  | error (f : Failure) : AlikeResult S t u (.error f) (.error f)

theorem Alike.refl (S : Location → Prop) (t : Staging) : Alike S t t :=
  ⟨fun _ _ => rfl, fun _ _ => rfl, fun _ _ => rfl⟩

theorem Alike.symm (h : Alike S t u) : Alike S u t :=
  ⟨fun x hx => (h.read x hx).symm, fun x hx => (h.exists_ x hx).symm,
    fun x hx => (h.original x hx).symm⟩

theorem Alike.trans (h : Alike S t u) (k : Alike S u v) : Alike S t v :=
  ⟨fun x hx => (h.read x hx).trans (k.read x hx),
    fun x hx => (h.exists_ x hx).trans (k.exists_ x hx),
    fun x hx => (h.original x hx).trans (k.original x hx)⟩

theorem Alike.mono (h : Alike T t u) (sub : ∀ x, S x → T x) : Alike S t u :=
  ⟨fun x hx => h.read x (sub x hx), fun x hx => h.exists_ x (sub x hx),
    fun x hx => h.original x (sub x hx)⟩

theorem Agree.alike (h : t.Agree u) (S : Location → Prop) : Alike S t u :=
  ⟨fun x _ => h.read x, fun x _ => h.exists_ x, fun x _ => h.original x⟩

/-- `u` is `t` with operations staged on top; some of what was pending may count as
flushed, but no disk has changed. -/
structure Extends (t : Staging) (ops : List Staged) (u : Staging) : Prop where
  log : u.log = t.log ++ ops
  disk : u.disk = t.disk
  original : ∀ x, u.original x = t.original x
  coherent : u.Coherent

theorem Extends.refl (ht : t.Coherent) : Extends t [] t :=
  ⟨by simp, rfl, fun _ => rfl, ht⟩

theorem Extends.trans {ops more : List Staged} (h : Extends t ops u) (k : Extends u more v) :
    Extends t (ops ++ more) v :=
  ⟨by rw [k.log, h.log, List.append_assoc], k.disk.trans h.disk,
    fun x => (k.original x).trans (h.original x), k.coherent⟩

theorem Extends.read {ops : List Staged} (h : Extends t ops u) (x : Location) :
    u.read x = (t.asOf (t.log ++ ops)).read x := by
  rw [← h.log, h.coherent.read_asOf h.disk]

/-- Operations elsewhere change nothing that is shown. -/
theorem Extends.alike {ops : List Staged} (h : Extends t ops u) (ht : t.Coherent)
    (apart : ∀ op ∈ ops, ∀ x ∈ op.paths, ¬S x) : Alike S t u := by
  have hoverlay : ∀ x, S x → t.overlay.get? x = u.overlay.get? x := by
    intro x hx
    rw [h.coherent.overlay_eq, ht.overlay_eq, h.log]
    exact (Staged.get?_replay_append_of_not_mem _
      fun op hop hmem => apart op hop x hmem hx).symm
  refine ⟨fun x hx => ?_, fun x hx => ?_, fun x _ => (h.original x).symm⟩
  · simp only [Staging.read, readDisk, hoverlay x hx, h.disk]
  · simp only [Staging.exists_, hoverlay x hx, h.disk]

/-- Nothing was staged. -/
theorem AlikeRun.of_alike {α : Type} (h : Alike S t u) (r : α) :
    AlikeRun S t u (t, r) (u, r) :=
  ⟨h, rfl, [], by simp⟩

/-- The same operations staged after the same operations. -/
theorem AlikeRun.trans {α : Type} {t' u' : Staging} {a b : Staging × α}
    (h : ∃ ops, t'.log = t.log ++ ops ∧ u'.log = u.log ++ ops) (k : AlikeRun S t' u' a b) :
    AlikeRun S t u a b := by
  obtain ⟨ops, ht, hu⟩ := h
  obtain ⟨more, ha, hb⟩ := k.log
  exact ⟨k.alike, k.result, ops ++ more, by rw [ha, ht, List.append_assoc],
    by rw [hb, hu, List.append_assoc]⟩

/-! ## Operations -/

theorem Alike.remember (h : Alike S t u) (hx : S x) :
    AlikeResult S t u (t.remember x) (u.remember x) := by
  have ht := t.remember_eq x
  have hu := u.remember_eq x
  rw [← h.original x hx] at hu
  cases horig : t.original x with
  | error f =>
    rw [ht, hu, horig]
    exact .error f
  | ok state =>
    rw [horig] at ht hu
    simp only [Except.map] at ht hu
    have ht' := agree_of_remember ht
    have hu' := agree_of_remember hu
    rw [ht, hu]
    exact .ok (((ht'.symm.alike S).trans h).trans (hu'.alike S))
      ⟨[], by simpa using ht'.log.symm, by simpa using hu'.log.symm⟩

/-- The same operation staged on noted paths. -/
theorem Alike.stage (h : Alike S t u) {op : Staged}
    (ht : ∀ p ∈ op.paths, t.firstSeen.has p = true)
    (hu : ∀ p ∈ op.paths, u.firstSeen.has p = true) :
    Alike S (t.stage op) (u.stage op) where
  read := fun x hx => by rw [read_stage, read_stage, h.read x hx]
  exists_ := fun x hx => by rw [exists_stage, exists_stage, h.exists_ x hx]
  original := fun x hx => by rw [original_stage ht, original_stage hu, h.original x hx]

theorem Alike.write (h : Alike S t u) (hx : S x) (s : String) :
    AlikeResult S t u (t.write x s) (u.write x s) := by
  have hr := h.remember hx
  unfold Staging.write
  generalize ht : t.remember x = rt at hr
  generalize hu : u.remember x = ru at hr
  cases hr with
  | error f => exact .error f
  | @ok t' u' h' hlog =>
    obtain ⟨ops, hops, hops'⟩ := hlog
    refine .ok (h'.stage ?_ ?_) ⟨ops ++ [.write x s], ?_, ?_⟩
    · simpa [Staged.paths] using (remember_ok ht).2.2.1
    · simpa [Staged.paths] using (remember_ok hu).2.2.1
    · simp [Staging.stage, hops]
    · simp [Staging.stage, hops']

theorem Alike.relink {a b : Location} (h : Alike S t u) (ha : S a) (hb : S b) (s : String) :
    AlikeRun S t u (t.relink a b s) (u.relink a b s) := by
  have hra := h.remember ha
  unfold Staging.relink
  generalize ht : t.remember a = rt at hra
  generalize hu : u.remember a = ru at hra
  cases hra with
  | error f => exact .of_alike h _
  | @ok t₁ u₁ h₁ hlog =>
    have hrb := h₁.remember hb
    dsimp only
    generalize ht₂ : t₁.remember b = rt at hrb
    generalize hu₂ : u₁.remember b = ru at hrb
    refine .trans hlog ?_
    cases hrb with
    | error f => exact .of_alike h₁ _
    | ok h₂ hlog₂ =>
      obtain ⟨ops, hops, hops'⟩ := hlog₂
      refine ⟨h₂.stage ?_ ?_, rfl, ops ++ [.rename a b s], ?_, ?_⟩
      · simpa [Staged.paths] using
          ⟨(remember_ok ht₂).2.2.2 a (remember_ok ht).2.2.1, (remember_ok ht₂).2.2.1⟩
      · simpa [Staged.paths] using
          ⟨(remember_ok hu₂).2.2.2 a (remember_ok hu).2.2.1, (remember_ok hu₂).2.2.1⟩
      · simp [Staging.stage, hops]
      · simp [Staging.stage, hops']

theorem Alike.rename {a b : Location} (h : Alike S t u) (ha : S a) (hb : S b) :
    AlikeRun S t u (t.rename a b) (u.rename a b) := by
  unfold Staging.rename
  rw [h.exists_ b hb, h.read a ha]
  split
  · exact .of_alike h _
  · split
    · exact .of_alike h _
    · exact h.relink ha hb _

end Staging

end Retarget
