import Retarget.Proofs.Syntax.Placed
import Retarget.Proofs.Syntax.Walking

/-!
# A walk, move by move

A cursor moves to the first child, to the next sibling or to the parent.  A walk makes these moves
in two loops: after a node was read it goes to the first child, and if it may not it leaves the tree
at its place, which means to climb until there is a next sibling or the root is left (`Leaves`).
`Walks` is the outer loop for any choice of the nodes to stop at and of the nodes to descend into,
so a full walk and the search for a node out of place are two cases of it.

Whatever the choice is, a walk ends (`exists_walks`), in one way only (`Walks.unique`), and reads no
place twice (`Walks.nodup`).  A walk that never stops and descends everywhere reads what is pending
(`WalksFully.map_node`), and so every place of the tree (`WalksFully.mem_iff`).
-/

namespace Retarget.Syntax.Cursor

variable {stop into : Node → Bool} {c d : Cursor} {next? : Option Cursor}
  {places others : List Cursor} {result other : Option Node} {root : Node}

/-! ## The inner loop -/

/-- The next sibling, if there is one. -/
def nextSibling (c : Cursor) : Option Cursor :=
  match c.right with
  | [] => none
  | n :: ns => some ⟨n, ns, c.above⟩

/-- The parent, if there is one. -/
def parent (c : Cursor) : Option Cursor :=
  match c.above with
  | [] => none
  | (n, right) :: above => some ⟨n, right, above⟩

/-- The inner loop: where a walk goes on once nothing is left to read below a place. -/
inductive Leaves : Cursor → Option Cursor → Prop
  | sibling {c d : Cursor} (hsibling : c.nextSibling = some d) : Leaves c (some d)
  | climb {c d : Cursor} {next? : Option Cursor} (hsibling : c.nextSibling = none)
      (hparent : c.parent = some d) (h : Leaves d next?) : Leaves c next?
  | out {c : Cursor} (hsibling : c.nextSibling = none) (hparent : c.parent = none) : Leaves c none

theorem onward_of_nextSibling (h : c.nextSibling = some d) : c.onward = some d := by
  obtain ⟨n, _ | ⟨m, ms⟩, above⟩ := c
  · cases h
  · exact h

theorem onward_of_parent (hsibling : c.nextSibling = none) (hparent : c.parent = some d) :
    c.onward = d.onward := by
  obtain ⟨n, _ | ⟨m, ms⟩, above⟩ := c
  · obtain _ | ⟨⟨p, _ | ⟨s, ss⟩⟩, above⟩ := above
    · cases hparent
    · obtain rfl := Option.some.inj hparent
      rfl
    · obtain rfl := Option.some.inj hparent
      rfl
  · cases hsibling

theorem onward_of_top (hsibling : c.nextSibling = none) (hparent : c.parent = none) :
    c.onward = none := by
  obtain ⟨n, _ | ⟨m, ms⟩, _ | ⟨a, above⟩⟩ := c
  · rfl
  · cases hparent
  · cases hsibling
  · cases hsibling

theorem leaves_onward (c : Cursor) : Leaves c c.onward := by
  cases hsibling : c.nextSibling with
  | some d =>
    rw [onward_of_nextSibling hsibling]
    exact .sibling hsibling
  | none =>
    cases hparent : c.parent with
    | some d =>
      have hless : d.above.length < c.above.length := by
        obtain ⟨n, right, _ | ⟨a, above⟩⟩ := c
        · cases hparent
        · obtain rfl := Option.some.inj hparent
          exact Nat.lt_succ_self _
      rw [onward_of_parent hsibling hparent]
      exact .climb hsibling hparent (leaves_onward d)
    | none =>
      rw [onward_of_top hsibling hparent]
      exact .out hsibling hparent
termination_by c.above.length

/-- The inner loop ends at the next sibling of the nearest ancestor that has one. -/
theorem leaves_iff : Leaves c next? ↔ c.onward = next? := by
  constructor
  · intro h
    induction h with
    | sibling hsibling => exact onward_of_nextSibling hsibling
    | climb hsibling hparent _ ih => exact (onward_of_parent hsibling hparent).trans ih
    | out hsibling hparent => exact onward_of_top hsibling hparent
  · rintro rfl
    exact leaves_onward c

/-! ## The outer loop -/

/-- Where a walk goes after it read a node. -/
inductive Moves (into : Node → Bool) : Cursor → Option Cursor → Prop
  | descend {c d : Cursor} (hinto : into c.node = true) (hchild : c.firstChild = some d) :
      Moves into c (some d)
  | leave {c : Cursor} {next? : Option Cursor}
      (hstay : into c.node = true → c.firstChild = none) (h : Leaves c next?) : Moves into c next?

/-- The outer loop from a place where a node is read: the places where nodes are read, and the node
that it stops at, if it does. -/
inductive Walks (stop into : Node → Bool) : Cursor → List Cursor → Option Node → Prop
  | stopped {c : Cursor} (hstop : stop c.node = true) : Walks stop into c [c] (some c.node)
  | more {c d : Cursor} {places : List Cursor} {result : Option Node} (hgo : stop c.node = false)
      (hmove : Moves into c (some d)) (h : Walks stop into d places result) :
      Walks stop into c (c :: places) result
  | ended {c : Cursor} (hgo : stop c.node = false) (hmove : Moves into c none) :
      Walks stop into c [c] none

/-- The place after this one in a walk that descends only into the nodes that are picked. -/
def nextInto (into : Node → Bool) (c : Cursor) : Option Cursor :=
  if into c.node then c.next else c.onward

theorem moves_iff : Moves into c next? ↔ c.nextInto into = next? := by
  unfold nextInto next
  constructor
  · rintro (⟨hinto, hchild⟩ | ⟨hstay, h⟩)
    · rw [if_pos hinto, hchild]
      rfl
    · by_cases hinto : into c.node
      · rw [if_pos hinto, hstay hinto]
        exact leaves_iff.mp h
      · rw [if_neg hinto]
        exact leaves_iff.mp h
  · rintro rfl
    by_cases hinto : into c.node
    · rw [if_pos hinto]
      cases hchild : c.firstChild with
      | none => exact .leave (fun _ => hchild) (leaves_onward c)
      | some d => exact .descend hinto hchild
    · rw [if_neg hinto]
      exact .leave (fun h => absurd h hinto) (leaves_onward c)

/-- A move takes the node of its place away, and those below it too if it does not descend. -/
theorem pending_eq_nextInto (into : Node → Bool) (c : Cursor) :
    c.pending = c.node :: ((if into c.node then [] else Node.preorderAll c.node.children) ++
      pendingAt (c.nextInto into)) := by
  unfold nextInto
  by_cases hinto : into c.node
  · rw [if_pos hinto, if_pos hinto, List.nil_append]
    exact pending_eq c
  · rw [if_neg hinto, if_neg hinto, pendingAt_onward]
    obtain ⟨⟨k, f, a, b, ns⟩, right, above⟩ := c
    rfl

/-- Every move leaves less to be read. -/
theorem length_pending_of_moves (h : Moves into c (some d)) :
    d.pending.length < c.pending.length := by
  rw [pending_eq_nextInto into c, moves_iff.mp h, List.length_cons, List.length_append]
  exact Nat.lt_succ_of_le (Nat.le_add_left _ _)

/-- Every walk ends. -/
theorem exists_walks (stop into : Node → Bool) (c : Cursor) :
    ∃ places result, Walks stop into c places result := by
  by_cases hstop : stop c.node
  · exact ⟨_, _, .stopped hstop⟩
  · have hgo : stop c.node = false := by simpa using hstop
    cases hnext : c.nextInto into with
    | none => exact ⟨_, _, .ended hgo (moves_iff.mpr hnext)⟩
    | some d =>
      have hmove := moves_iff.mpr hnext
      have hless := length_pending_of_moves hmove
      obtain ⟨places, result, h⟩ := exists_walks stop into d
      exact ⟨_, _, .more hgo hmove h⟩
termination_by c.pending.length

/-- A walk can only go one way. -/
theorem Walks.unique (h : Walks stop into c places result) (h' : Walks stop into c others other) :
    others = places ∧ other = result := by
  induction h generalizing others with
  | stopped hstop =>
    cases h' with
    | stopped => exact ⟨rfl, rfl⟩
    | more hgo => simp [hstop] at hgo
    | ended hgo => simp [hstop] at hgo
  | more hgo hmove _ ih =>
    cases h' with
    | stopped hstop => simp [hstop] at hgo
    | more _ hmove' h' =>
      obtain rfl := Option.some.inj ((moves_iff.mp hmove).symm.trans (moves_iff.mp hmove'))
      obtain ⟨rfl, rfl⟩ := ih h'
      exact ⟨rfl, rfl⟩
    | ended _ hmove' => cases (moves_iff.mp hmove).symm.trans (moves_iff.mp hmove')
  | ended hgo hmove =>
    cases h' with
    | stopped hstop => simp [hstop] at hgo
    | more _ hmove' => cases (moves_iff.mp hmove).symm.trans (moves_iff.mp hmove')
    | ended => exact ⟨rfl, rfl⟩

/-- A walk reads no more nodes than there are from its place onwards. -/
theorem Walks.length_le (h : Walks stop into c places result) :
    places.length ≤ c.pending.length := by
  have hone (c : Cursor) : 1 ≤ c.pending.length := by
    rw [pending_eq]
    exact Nat.succ_le_succ (Nat.zero_le _)
  induction h with
  | stopped => exact hone _
  | more _ hmove _ ih =>
    have hless := length_pending_of_moves hmove
    rw [List.length_cons]
    omega
  | ended => exact hone _

theorem Walks.head_mem (h : Walks stop into c places result) : c ∈ places := by
  cases h with
  | stopped => exact List.mem_cons_self
  | more => exact List.mem_cons_self
  | ended => exact List.mem_cons_self

/-- From a place that a walk reads on it goes as a walk from there. -/
theorem Walks.after (h : Walks stop into c places result) (hd : d ∈ places) :
    ∃ before rest, places = before ++ rest ∧ Walks stop into d rest result := by
  induction h with
  | stopped hstop =>
    obtain rfl := List.mem_singleton.mp hd
    exact ⟨[], _, rfl, .stopped hstop⟩
  | @more c e places result hgo hmove h ih =>
    rcases List.mem_cons.mp hd with rfl | hd
    · exact ⟨[], _, rfl, .more hgo hmove h⟩
    · obtain ⟨before, rest, rfl, hrest⟩ := ih hd
      exact ⟨c :: before, rest, rfl, hrest⟩
  | ended hgo hmove =>
    obtain rfl := List.mem_singleton.mp hd
    exact ⟨[], _, rfl, .ended hgo hmove⟩

/-- A place that is read twice would be read forever. -/
theorem Walks.nodup (h : Walks stop into c places result) : places.Nodup := by
  induction h with
  | stopped => simp
  | @more c d places result hgo hmove h ih =>
    refine List.nodup_cons.mpr ⟨?_, ih⟩
    intro hc
    obtain ⟨before, rest, hplaces, hrest⟩ := h.after hc
    obtain ⟨rfl, -⟩ := (Walks.more hgo hmove h).unique hrest
    have hlength := congrArg List.length hplaces
    simp only [List.length_append, List.length_cons] at hlength
    omega
  | ended => simp

/-! ## Full walks -/

/-- A place in a tree: the root, or a child of a place with the siblings to its right. -/
inductive Within (root : Node) : Cursor → Prop
  | root : Within root (atRoot root)
  | child {c : Cursor} {left : List Node} {n : Node} {right : List Node} (hc : Within root c)
      (hchildren : c.node.children = left ++ n :: right) :
      Within root ⟨n, right, (c.node, c.right) :: c.above⟩

/-- A walk that never stops and descends everywhere. -/
abbrev WalksFully (c : Cursor) (places : List Cursor) (result : Option Node) : Prop :=
  Walks (fun _ => false) (fun _ => true) c places result

theorem WalksFully.more_of_next (h : WalksFully c places result) (hnext : c.next = some d) :
    ∃ rest, places = c :: rest ∧ WalksFully d rest result := by
  cases h with
  | stopped hstop => cases hstop
  | more _ hmove h =>
    obtain rfl := Option.some.inj (hnext.symm.trans (moves_iff.mp hmove))
    exact ⟨_, rfl, h⟩
  | ended _ hmove => cases hnext.symm.trans (moves_iff.mp hmove)

/-- A full walk reads what is pending and stops nowhere. -/
theorem WalksFully.map_node (h : WalksFully c places result) :
    places.map node = c.pending ∧ result = none := by
  induction h with
  | stopped hstop => cases hstop
  | more _ hmove _ ih =>
    have hnext : next _ = some _ := moves_iff.mp hmove
    rw [pending_eq, hnext, List.map_cons, ih.1]
    exact ⟨rfl, ih.2⟩
  | ended _ hmove =>
    have hnext : next _ = none := moves_iff.mp hmove
    rw [pending_eq, hnext]
    exact ⟨rfl, rfl⟩

/-- Once a tree is read, a full walk goes on behind it: by induction on the tree, it gets behind each
child, and behind the last one it leaves the parent. -/
theorem WalksFully.onward_mem (h : WalksFully c places result) (honward : c.onward = some d) :
    d ∈ places := by
  obtain ⟨n, right, above⟩ := c
  induction n using Node.induction generalizing right above places d with
  | h k f a b ns ih =>
    cases ns with
    | nil =>
      obtain ⟨rest, rfl, hrest⟩ := h.more_of_next honward
      exact List.mem_cons_of_mem _ hrest.head_mem
    | cons x xs =>
      obtain ⟨rest, rfl, hrest⟩ := h.more_of_next rfl
      refine List.mem_cons_of_mem _ ?_
      -- each child leads to the next one, and the last one leads out as the parent does
      have hall : ∀ y ys, y :: ys <:+ x :: xs → ∀ {places},
          WalksFully ⟨y, ys, (.mk k f a b (x :: xs), right) :: above⟩ places result →
          d ∈ places := by
        intro y ys
        induction ys generalizing y with
        | nil =>
          intro hsuffix places h
          refine ih y (hsuffix.subset List.mem_cons_self) _ _ h ?_
          obtain _ | ⟨m, ms⟩ := right
          · exact honward
          · exact honward
        | cons z zs ihys =>
          intro hsuffix places h
          have hz := ih y (hsuffix.subset List.mem_cons_self) _ _ h rfl
          obtain ⟨before, rest, rfl, hrest⟩ := Walks.after h hz
          refine List.mem_append_right _ (ihys z ?_ hrest)
          exact (List.suffix_cons y _).trans hsuffix
      exact hall x xs (List.suffix_refl _) hrest

/-- A full walk reads the siblings to the right of a place. -/
theorem WalksFully.sibling_mem {left right row : List Node} {m n : Node}
    {above : List (Node × List Node)} (h : WalksFully ⟨m, row, above⟩ places result)
    (hrow : m :: row = left ++ n :: right) : ⟨n, right, above⟩ ∈ places := by
  induction left generalizing m row places with
  | nil =>
    obtain ⟨rfl, rfl⟩ := List.cons.inj hrow
    exact h.head_mem
  | cons l left ih =>
    obtain ⟨-, hrest⟩ := List.cons.inj hrow
    cases row with
    | nil => simp at hrest
    | cons x xs =>
      obtain ⟨before, rest, rfl, hwalk⟩ := Walks.after h (h.onward_mem rfl)
      exact List.mem_append_right _ (ih hwalk hrest)

theorem Within.of_leaves (h : Leaves c (some d)) (hc : Within root c) : Within root d := by
  generalize hnext : some d = next? at h
  induction h with
  | @sibling c e hsibling =>
    obtain rfl := Option.some.inj hnext
    obtain _ | @⟨c, left, n, right, hc, hchildren⟩ := hc
    · cases hsibling
    · cases right with
      | nil => cases hsibling
      | cons m ms =>
        obtain rfl := Option.some.inj hsibling
        have hsplit : c.node.children = (left ++ [n]) ++ m :: ms := by simpa using hchildren
        exact .child hc hsplit
  | @climb c e next? _ hparent _ ih =>
    refine ih ?_ hnext
    obtain _ | @⟨c, left, n, right, hc, hchildren⟩ := hc
    · cases hparent
    · obtain rfl := Option.some.inj hparent
      exact hc
  | out => cases hnext

theorem Within.of_moves (h : Moves into c (some d)) (hc : Within root c) : Within root d := by
  cases h with
  | descend _ hchild =>
    unfold firstChild at hchild
    split at hchild
    · cases hchild
    · next n ns hchildren =>
      obtain rfl := Option.some.inj hchild
      have hsplit : c.node.children = [] ++ n :: ns := hchildren
      exact .child hc hsplit
  | leave _ h => exact hc.of_leaves h

/-- A walk stays in its tree. -/
theorem Walks.within (h : Walks stop into c places result) (hc : Within root c) :
    ∀ d ∈ places, Within root d := by
  induction h with
  | stopped =>
    intro d hd
    rwa [List.mem_singleton.mp hd]
  | more _ hmove _ ih =>
    intro d hd
    rcases List.mem_cons.mp hd with rfl | hd
    · exact hc
    · exact ih (hc.of_moves hmove) d hd
  | ended =>
    intro d hd
    rwa [List.mem_singleton.mp hd]

/-- A full walk reads the places of a tree. -/
theorem WalksFully.mem_iff (h : WalksFully (atRoot root) places result) :
    c ∈ places ↔ Within root c := by
  constructor
  · exact h.within .root c
  · intro hc
    induction hc with
    | root => exact h.head_mem
    | @child c left n right _ hchildren ih =>
      obtain ⟨before, rest, rfl, hrest⟩ := Walks.after h ih
      obtain ⟨x, xs, hx⟩ := List.exists_cons_of_ne_nil (l := c.node.children) (by simp [hchildren])
      have hnext : c.next = some ⟨x, xs, (c.node, c.right) :: c.above⟩ := by
        simp [next, firstChild, hx]
      obtain ⟨below, rfl, hbelow⟩ := WalksFully.more_of_next hrest hnext
      have hn := WalksFully.sibling_mem hbelow (hx.symm.trans hchildren)
      exact List.mem_append_right _ (List.mem_cons_of_mem _ hn)

end Retarget.Syntax.Cursor
