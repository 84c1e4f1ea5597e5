import Retarget.Syntax.Cursor

/-!
# A full walk of a tree

What a cursor has still to read is the tree at its place, the trees to the right of it and
those to the right of its ancestors.  One move takes the first of these nodes away, so a
walk reads the nodes of a tree in pre-order.
-/

namespace Retarget.Syntax.Cursor

open Node (preorderAll)

/-- The nodes of the trees to the right of ancestors. -/
def behind (above : List (Node × List Node)) : List Node :=
  above.flatMap fun a => preorderAll a.2

/-- The nodes still to be read from a place onwards. -/
def pending (c : Cursor) : List Node :=
  c.node.preorder ++ (preorderAll c.right ++ behind c.above)

/-- What is still to be read if there is a place to read it from. -/
def pendingAt (c : Option Cursor) : List Node :=
  (c.map pending).getD []

theorem pendingAt_climb (above : List (Node × List Node)) : pendingAt (climb above) = behind above := by
  induction above with
  | nil => rfl
  | cons a above ih =>
    obtain ⟨n, _ | ⟨m, ns⟩⟩ := a
    · exact ih
    · simp [climb, pendingAt, pending, behind, preorderAll]

theorem pendingAt_onward (c : Cursor) :
    pendingAt c.onward = preorderAll c.right ++ behind c.above := by
  unfold onward
  cases hright : c.right with
  | nil => exact pendingAt_climb c.above
  | cons n ns => simp [pendingAt, pending, preorderAll]

/-- One move takes the node of its place away. -/
theorem pending_eq (c : Cursor) : c.pending = c.node :: pendingAt c.next := by
  obtain ⟨⟨k, f, a, b, ns⟩, right, above⟩ := c
  have honward := pendingAt_onward ⟨.mk k f a b ns, right, above⟩
  cases ns with
  | nil =>
    have hnext : Cursor.next ⟨.mk k f a b [], right, above⟩ = onward ⟨.mk k f a b [], right, above⟩ :=
      rfl
    rw [hnext, honward]
    rfl
  | cons n ns =>
    simp [next, firstChild, Node.children, pending, pendingAt, Node.preorder, preorderAll, behind]

theorem nodesFrom_eq {n : Nat} {c : Cursor} (h : c.pending.length ≤ n) :
    nodesFrom n c = c.pending := by
  induction n generalizing c with
  | zero =>
    rw [pending_eq] at h
    cases h
  | succ n ih =>
    rw [pending_eq] at h ⊢
    rw [nodesFrom]
    cases hnext : c.next with
    | none => rfl
    | some d =>
      rw [hnext] at h
      have hd : nodesFrom n d = d.pending := ih (Nat.le_of_succ_le_succ h)
      exact congrArg _ hd

theorem pending_atRoot (root : Node) : (atRoot root).pending = root.preorder := by
  simp [pending, atRoot, behind, preorderAll]

/-- A walk reads the nodes of a tree in pre-order. -/
theorem walk_eq_preorder (root : Node) : walk root = root.preorder := by
  have hwalk : walk root = (atRoot root).pending := by
    apply nodesFrom_eq
    rw [pending_atRoot]
    exact Nat.le_of_eq (Node.length_preorder root)
  rw [hwalk, pending_atRoot]

end Retarget.Syntax.Cursor
