import Retarget.Syntax.NodeType

/-!
# Syntax trees

A `Node` covers the bytes `start … stop` of a text and holds its children from
left to right.  Besides the named constructs a tree holds the tokens of the
text, and, where the text is no program, nodes that mark what is out of place:
`error` for a stretch that fits nowhere, `missing` for a token that had to be
supposed.  `Node.preorder` lists a tree parents first.
-/

namespace Retarget.Syntax

/-- What a node stands for. -/
inductive Kind where
  /-- a named construct of the grammar -/
  | named (t : NodeType)
  /-- a keyword or punctuation mark of the text -/
  | token
  /-- a token that the text lacks, with its spelling -/
  | missing (spelling : String)
  /-- a stretch of text that fits nowhere -/
  | error
  deriving DecidableEq, Repr

/-- A node of a syntax tree: its kind, its role in the parent, the bytes it
covers and its children. -/
inductive Node where
  | mk (kind : Kind) (field : Option Field) (start stop : Nat) (children : List Node)
  deriving Repr

namespace Node

/-- What the node stands for. -/
def kind : Node → Kind
  | mk k _ _ _ _ => k

/-- The role of the node in its parent. -/
def field : Node → Option Field
  | mk _ f _ _ _ => f

/-- The first byte the node covers. -/
def start : Node → Nat
  | mk _ _ a _ _ => a

/-- The byte after the last one the node covers. -/
def stop : Node → Nat
  | mk _ _ _ b _ => b

/-- The children, from left to right. -/
def children : Node → List Node
  | mk _ _ _ _ cs => cs

/-- The same node in another role. -/
def withField (f : Field) : Node → Node
  | mk k _ a b cs => mk k (some f) a b cs

/-- Whether the node is the given named construct. -/
def is (t : NodeType) (n : Node) : Bool :=
  n.kind = .named t

/-- Whether the node is a named construct; tokens are not. -/
def isNamed (n : Node) : Bool :=
  match n.kind with
  | .token => false
  | _ => true

/-- Whether the node itself marks something out of place. -/
def isBad (n : Node) : Bool :=
  match n.kind with
  | .error => true
  | .missing _ => true
  | _ => false

/-- The first child in the given role. -/
def child? (f : Field) (n : Node) : Option Node :=
  n.children.find? fun c => c.field = some f

/-- The named children. -/
def namedChildren (n : Node) : List Node :=
  n.children.filter isNamed

mutual

/-- The nodes of a tree, parents before children and left before right. -/
def preorder : Node → List Node
  | mk k f a b cs => mk k f a b cs :: preorderAll cs

/-- The nodes of a row of trees, tree after tree. -/
def preorderAll : List Node → List Node
  | [] => []
  | n :: ns => preorder n ++ preorderAll ns

end

mutual

/-- The number of nodes of a tree. -/
def size : Node → Nat
  | mk _ _ _ _ cs => sizeAll cs + 1

/-- The number of nodes of a row of trees. -/
def sizeAll : List Node → Nat
  | [] => 0
  | n :: ns => size n + sizeAll ns

end

mutual

/-- Whether the node or one below it marks something out of place. -/
def hasError : Node → Bool
  | mk k f a b cs => (mk k f a b cs).isBad || hasErrorAny cs

/-- Whether one of the trees marks something out of place. -/
def hasErrorAny : List Node → Bool
  | [] => false
  | n :: ns => hasError n || hasErrorAny ns

end

/-- A tree is as large as its pre-order list is long, and so is a row of
trees. -/
theorem length_preorder (n : Node) : n.preorder.length = n.size :=
  Node.rec (motive_1 := fun n => n.preorder.length = n.size)
    (motive_2 := fun ns => (preorderAll ns).length = sizeAll ns)
    (fun _ _ _ _ _ ih => by simp [preorder, size, ih])
    (by simp [preorderAll, sizeAll])
    (fun _ _ ih ihs => by simp [preorderAll, sizeAll, ih, ihs]) n

end Node

end Retarget.Syntax
