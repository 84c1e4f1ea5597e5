import Mathlib.Tactic.FinCases
import Retarget.Proofs.Staging.Bookkeeping

/-!
# Changes are the difference to the start

What a path held at first is noted when it is first touched, whenever that is, and the
note stays when the staging goes back.  Since the log accounts for the disk and the
notes, the changes are nevertheless the difference between what is seen now and what was
there when the staging was made.
-/

namespace Retarget.Staging

variable {base : Option Disk} {t : Staging} {l : Location}

/-- The text that a path holds, or none if no file is there. -/
def held (t : Staging) (l : Location) : Except Failure (Option String) :=
  match t.read l with
  | .ok s => .ok (some s)
  | .error (.fileNotFound _) => .ok none
  | .error f => .error f

/-- The text of a file, if it is one. -/
def textOf : Option Content → Except Failure (Option String)
  | none => .ok none
  | some (.text s) => .ok (some s)
  | some (.raw _) => .error Disk.Fault.notText.failure

theorem textOf_map (state : Option String) : textOf (state.map .text) = .ok state := by
  cases state with
  | none => rfl
  | some s => rfl

theorem Sound.held_eq (h : t.Sound base) (hbase : Rooted base) (hl : l.Plain) :
    t.held l = textOf (contents base t.log l) := by
  unfold held
  rw [h.read_eq hbase hl]
  cases contents base t.log l with
  | none => rfl
  | some c =>
    cases c with
    | text s => rfl
    | raw b => rfl

/-- With nothing staged a path holds what is on the disk. -/
theorem held_fresh (base : Option Disk) (l : Location) :
    (fresh base).held l = (fresh base).readDisk l := by
  cases base with
  | none => rfl
  | some d =>
    have hread : (fresh (some d)).read l = reading l (d.file? l) := read_open d l
    rw [held, hread, readDisk_eq (t := fresh (some d)) rfl]
    cases d.file? l with
    | none => rfl
    | some c =>
      cases c with
      | text s => rfl
      | raw b => rfl

/-- A path that the overlay does not know holds what it held at first. -/
theorem Sound.held_of_get?_eq_none (h : t.Sound base) (hbase : Rooted base) (hl : l.Plain)
    (hget : t.overlay.get? l = none) : t.held l = (fresh base).held l := by
  rw [h.held_eq hbase hl, (sound_fresh base).held_eq hbase hl]
  refine congrArg textOf (Disk.carried_of_not_mem fun op hop hmem => ?_)
  have hhas := Staged.has_replay_iff.mpr ⟨op, hop, hmem⟩
  rw [h.coherent.overlay_eq] at hget
  simp [OrderedMap.has, hget] at hhas

/-- A path that the overlay knows holds what the overlay shows, and held at first what
was noted. -/
theorem Sound.held_of_get? (h : t.Sound base) (hbase : Rooted base) {state : Option String}
    (hget : t.overlay.get? l = some state) :
    l.Plain ∧ t.held l = .ok state ∧
      (fresh base).held l = .ok (t.firstSeen.get? l).join := by
  obtain ⟨op, hop, hmem⟩ : ∃ op ∈ t.log, l ∈ op.paths := by
    rw [← Staged.has_replay_iff, ← h.coherent.overlay_eq, OrderedMap.has, hget]
    rfl
  have hl := h.plain op hop l hmem
  refine ⟨hl, ?_, ?_⟩
  · rw [h.held_eq hbase hl, ← h.shown_eq hbase hl, Disk.shown, ← h.coherent.overlay_eq, hget]
    exact textOf_map state
  · obtain ⟨before, hbefore⟩ := Option.isSome_iff_exists.mp (h.coherent.seen op hop l hmem)
    rw [held_fresh, hbefore]
    exact h.noted l hl before hbefore

/-! ## The changes -/

/-- A change is a path whose noted content is not the one that the overlay shows. -/
theorem Coherent.mem_changes (ht : t.Coherent) {c : Change} : c ∈ t.changes ↔
    t.overlay.get? c.path = some c.after ∧ (t.firstSeen.get? c.path).join = c.before ∧
      c.before ≠ c.after := by
  unfold changes
  rw [List.mem_filterMap]
  constructor
  · rintro ⟨⟨p, state⟩, hmem, hc⟩
    dsimp only at hc
    split at hc
    · cases hc
    · next hne =>
      obtain rfl := Option.some.inj hc
      exact ⟨OrderedMap.get?_of_mem ht.nodup_keys hmem, rfl, hne⟩
  · rintro ⟨hget, hbefore, hne⟩
    refine ⟨(c.path, c.after), OrderedMap.mem_of_get? hget, ?_⟩
    dsimp only
    rw [hbefore, if_neg hne]

/-- No path is listed twice. -/
theorem Coherent.nodup_changes (ht : t.Coherent) : (t.changes.map Change.path).Nodup := by
  refine ht.nodup_keys.sublist (OrderedMap.map_filterMap_sublist _ fun x c hc => ?_)
  dsimp only at hc
  split at hc
  · cases hc
  · obtain rfl := Option.some.inj hc
    rfl

/-- Whatever a program does with a staging on plain paths, successfully or not, the
changes list every path once whose content is not the one from when the staging was made,
and no other, with the two contents. -/
theorem changes_are_differences (base : Option Disk) (hbase : Rooted base)
    (program : List Action) (hplain : ∀ a ∈ program, a.Plain) :
    let t := ((Session.start base).after program).staging
    (t.changes.map Change.path).Nodup ∧
      (∀ l, l.Plain → ((∃ c ∈ t.changes, c.path = l) ↔ t.held l ≠ (fresh base).held l)) ∧
      ∀ c ∈ t.changes, c.path.Plain ∧ (fresh base).held c.path = .ok c.before ∧
        t.held c.path = .ok c.after := by
  intro t
  have ht : t.Sound base := Session.sound_after hbase (sound_fresh base) hplain
  have hlisted : ∀ c ∈ t.changes, c.path.Plain ∧ (fresh base).held c.path = .ok c.before ∧
      t.held c.path = .ok c.after := by
    intro c hc
    obtain ⟨hget, hbefore, -⟩ := ht.coherent.mem_changes.mp hc
    obtain ⟨hl, hnow, hfirst⟩ := ht.held_of_get? hbase hget
    rw [hbefore] at hfirst
    exact ⟨hl, hfirst, hnow⟩
  refine ⟨ht.coherent.nodup_changes, fun l hl => ⟨?_, fun hne => ?_⟩, hlisted⟩
  · rintro ⟨c, hc, rfl⟩
    obtain ⟨-, hfirst, hnow⟩ := hlisted c hc
    have hne := (ht.coherent.mem_changes.mp hc).2.2
    rw [hfirst, hnow]
    exact fun heq => hne (Except.ok.inj heq).symm
  · cases hget : t.overlay.get? l with
    | none => exact absurd (ht.held_of_get?_eq_none hbase hl hget) hne
    | some state =>
      obtain ⟨-, hnow, hfirst⟩ := ht.held_of_get? hbase hget
      refine ⟨⟨l, (t.firstSeen.get? l).join, state⟩, ?_, rfl⟩
      refine ht.coherent.mem_changes.mpr ⟨hget, rfl, fun heq => hne ?_⟩
      rw [hnow, hfirst]
      exact congrArg Except.ok heq.symm

/-! ## A program with failures -/

theorem changes_are_differences_errands :
    let t := ((Session.start (some workshop)).after errands).staging
    t.pending = true ∧ t.changes = [⟨[.name "a", .name "w.js"], some "old", some "new"⟩,
      ⟨[.name "a", .name "v.js"], none, some "old"⟩, ⟨[.name "a"], none, some "blocked"⟩] ∧
      (fresh (some workshop)).held [.name "a", .name "w.js"] = .ok (some "old") ∧
      t.held [.name "n.js"] = (fresh (some workshop)).held [.name "n.js"] := by
  intro t
  obtain ⟨-, hlisted, hcontents⟩ :=
    changes_are_differences (some workshop) rooted_workshop errands plain_errands
  have hchanges : t.changes = [⟨[.name "a", .name "w.js"], some "old", some "new"⟩,
      ⟨[.name "a", .name "v.js"], none, some "old"⟩, ⟨[.name "a"], none, some "blocked"⟩] := by
    decide
  refine ⟨by decide, hchanges, (hcontents _ (hchanges ▸ List.mem_cons_self)).2.1, ?_⟩
  by_contra hne
  obtain ⟨c, hc, hpath⟩ := (hlisted [.name "n.js"] ⟨["n.js"], rfl⟩).mpr hne
  rw [hchanges] at hc
  fin_cases hc <;> simp at hpath

end Retarget.Staging
