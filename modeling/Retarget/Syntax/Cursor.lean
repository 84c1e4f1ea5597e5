import Retarget.Syntax.Node

/-!
# Walking a syntax tree

A `Cursor` is a place in a tree together with the way back: the siblings to
the right at this level and at every level above.  It moves to the first
child, to the next sibling or to the parent.  `Cursor.walk` reads a whole tree
with these three moves, and `Cursor.firstError` looks for the first node out
of place while it descends only into trees that hold one.
-/

namespace Retarget.Syntax

/-- A place in a tree: the node, its right siblings, and the ancestors from
the parent upwards, each with its own right siblings. -/
structure Cursor where
  node : Node
  right : List Node
  above : List (Node × List Node)

namespace Cursor

/-- The cursor at the root of a tree. -/
def atRoot (root : Node) : Cursor :=
  ⟨root, [], []⟩

/-- The first child, if there is one. -/
def firstChild (c : Cursor) : Option Cursor :=
  match c.node.children with
  | [] => none
  | n :: ns => some ⟨n, ns, (c.node, c.right) :: c.above⟩

/-- Climbs from a level without right siblings to the first level that has
one, and steps to it. -/
def climb : List (Node × List Node) → Option Cursor
  | [] => none
  | (_, n :: ns) :: above => some ⟨n, ns, above⟩
  | (_, []) :: above => climb above

/-- The next sibling, or that of the nearest ancestor that has one. -/
def onward (c : Cursor) : Option Cursor :=
  match c.right with
  | n :: ns => some ⟨n, ns, c.above⟩
  | [] => climb c.above

/-- The place after this one in a full walk. -/
def next (c : Cursor) : Option Cursor :=
  c.firstChild <|> c.onward

/-- The nodes read from a place onwards, at most `n` of them. -/
def nodesFrom : Nat → Cursor → List Node
  | 0, _ => []
  | n + 1, c =>
    c.node :: match c.next with
      | none => []
      | some d => nodesFrom n d

/-- Every node of a tree, in the order a full walk reads them. -/
def walk (root : Node) : List Node :=
  nodesFrom root.size (atRoot root)

/-- The place after this one in a walk that descends only into trees with
something out of place. -/
def nextSuspect (c : Cursor) : Option Cursor :=
  (if c.node.hasError then c.firstChild else none) <|> c.onward

/-- The first node out of place from here on, reading at most `n` nodes. -/
def errorFrom : Nat → Cursor → Option Node
  | 0, _ => none
  | n + 1, c =>
    if c.node.isBad then some c.node
    else match c.nextSuspect with
      | none => none
      | some d => errorFrom n d

/-- The first node out of place in a tree; sound trees are not searched. -/
def firstError (root : Node) : Option Node :=
  if root.hasError then errorFrom root.size (atRoot root) else none

end Cursor

end Retarget.Syntax
