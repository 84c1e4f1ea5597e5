import Retarget.Syntax.Lexeme
import Retarget.Syntax.Node

/-!
# Grammar rules

A grammar is a value: `Rule N` describes how a stretch of text is read, with
`N` naming the forms that rules refer to.  `Rule.read` reads one rule at a
`Place`, and `Grammar.read` closes it over a grammar, spending one unit of fuel
on every form it enters.  Choices are ordered: the first alternative that
fits is taken.

Comments stand before any lexeme.  They become children of the smallest node
that has lexemes on both sides of them, so a node never opens with one.
-/

namespace Retarget.Syntax

/-- How a stretch of text is read. -/
inductive Rule (N : Type) where
  /-- nothing, always -/
  | nothing
  /-- never fits -/
  | never
  /-- a lexeme after gaps and comments -/
  | lexeme (kind : Kind) (scan : Scan)
  /-- a lexeme right here, without a gap -/
  | glued (kind : Kind) (scan : Scan)
  /-- nothing, where the rest of the text passes a test -/
  | where_ (test : List Char → Bool)
  /-- one rule after the other -/
  | then_ (first second : Rule N)
  /-- the first of two rules that fits -/
  | or_ (first second : Rule N)
  /-- a rule any number of times -/
  | many (each : Rule N)
  /-- what a rule reads, as one node -/
  | node (type : NodeType) (inner : Rule N)
  /-- what a rule reads, in a role -/
  | role (field : Field) (inner : Rule N)
  /-- a first part that later parts grow around -/
  | grow (base step : Rule N)
  /-- in a step: a node whose first child is what was grown so far -/
  | around (type : NodeType) (left : Option Field) (inner : Rule N)
  /-- in a step: nothing, where the part grown so far passes a test -/
  | after (test : NodeType → Bool)
  /-- nothing, where a rule does not fit -/
  | unless (inner : Rule N)
  /-- nothing, where a rule fits -/
  | ahead (inner : Rule N)
  /-- the rule of a form -/
  | form (name : N)

/-- A place in a text: what is left, the bytes already read, the bytes of the
whole text, and the furthest byte at which a lexeme was wanted in vain. -/
structure Place where
  rest : List Char
  pos : Nat
  total : Nat
  reach : Nat
  deriving Repr

/-- What reading a rule gives: nodes and the place behind them, or the
furthest byte at which a lexeme was wanted in vain. -/
abbrev Reading := Except Nat (List Node × Place)

namespace Place

/-- The bytes of a text. -/
def bytes (cs : List Char) : Nat :=
  cs.foldl (fun n c => n + c.utf8Size) 0

/-- The start of a text. -/
def start (cs : List Char) : Place :=
  ⟨cs, 0, bytes cs, 0⟩

/-- More than the characters that are left: a bound for every loop from here. -/
def room (p : Place) : Nat :=
  p.total - p.pos + 1

/-- The place `n` characters further on. -/
def advance (p : Place) (n : Nat) : Place :=
  { p with rest := p.rest.drop n, pos := p.pos + bytes (p.rest.take n) }

/-- Skips gaps and comments, and gives the comments as nodes; `n` bounds their
number. -/
def skipGaps : Nat → Place → List Node × Place
  | 0, p => ([], p)
  | n + 1, p =>
    let q := p.advance (Lexeme.run Lexeme.isGap p.rest)
    match Lexeme.comment q.rest with
    | none => ([], q)
    | some k =>
      let r := q.advance k
      let (more, s) := skipGaps n r
      (Node.mk (.named .comment) none q.pos r.pos [] :: more, s)

/-- Records that the place was reached in vain by another reading. -/
def reached (p : Place) (m : Nat) : Place :=
  { p with reach := max p.reach m }

end Place

namespace Rule

variable {N : Type}

/-- A rule, or nothing. -/
def opt (r : Rule N) : Rule N :=
  .or_ r .nothing

/-- Rules one after the other. -/
def row : List (Rule N) → Rule N
  | [] => .nothing
  | [r] => r
  | r :: rs => .then_ r (row rs)

/-- The first of several rules that fits. -/
def any : List (Rule N) → Rule N
  | [] => .never
  | [r] => r
  | r :: rs => .or_ r (any rs)

/-- At least one item, with a separator between them. -/
def sepBy1 (sep item : Rule N) : Rule N :=
  .then_ item (.many (.then_ sep item))

/-- A named lexeme. -/
def leaf (t : NodeType) (scan : Scan) : Rule N :=
  .lexeme (.named t) scan

/-- A mark, not followed by one of the given characters. -/
def mark (spelling : String) (notBefore : String) : Rule N :=
  .lexeme .token (Lexeme.mark spelling.toList notBefore.toList)

/-- A mark that needs no look at what follows. -/
def sign (spelling : String) : Rule N :=
  .lexeme .token (Lexeme.spelled spelling.toList)

/-- A keyword. -/
def word (spelling : String) : Rule N :=
  .lexeme .token (Lexeme.keyword spelling.toList)

/-- Splits the comments off the head of a row of nodes. -/
def splitComments (ns : List Node) : List Node × List Node :=
  (ns.takeWhile (·.is .comment), ns.dropWhile (·.is .comment))

/-- One node over a row of nodes; comments at its head stay before it. -/
def enclose (t : NodeType) (pos : Nat) (ns : List Node) : List Node :=
  let (before, inner) := splitComments ns
  let start := (inner.head?.map Node.start).getD pos
  let stop := (inner.getLast?.map Node.stop).getD pos
  before ++ [.mk (.named t) none start stop inner]

/-- Gives the nodes that are no comments a role. -/
def assign (f : Field) (ns : List Node) : List Node :=
  ns.map fun n => if n.is .comment then n else n.withField f

/-- Reads a lexeme at a place. -/
def readLexeme (kind : Kind) (scan : Scan) (p : Place) : Reading :=
  match scan p.rest with
  | none => .error (max p.reach p.pos)
  | some n =>
    let q := p.advance n
    .ok ([.mk kind none p.pos q.pos []], q)

/-- Reads a rule again and again while it moves on; `n` bounds the turns. -/
def readMany (read : Place → Reading) : Nat → Place → List Node × Place
  | 0, p => ([], p)
  | n + 1, p =>
    match read p with
    | .error m => ([], p.reached m)
    | .ok (ns, q) =>
      if q.pos ≤ p.pos then ([], p.reached q.reach)
      else
        let (ms, r) := readMany read n q
        (ns ++ ms, r)

/-- Grows a part while the step moves on; `n` bounds the turns. -/
def readGrow (step : List Node → Place → Reading) : Nat → List Node → Place → List Node × Place
  | 0, ns, p => (ns, p)
  | n + 1, ns, p =>
    match step ns p with
    | .error m => (ns, p.reached m)
    | .ok (ms, q) => if q.pos ≤ p.pos then (ns, p.reached q.reach) else readGrow step n ms q

/-- Reads a rule.  `enter` reads the forms it refers to, and `left` is the part
grown so far. -/
def read (enter : N → Place → Reading) : Rule N → List Node → Place → Reading
  | .nothing, _, p => .ok ([], p)
  | .never, _, p => .error p.reach
  | .lexeme kind scan, _, p =>
    let (comments, q) := p.skipGaps p.room
    match readLexeme kind scan q with
    | .error m => .error m
    | .ok (ns, r) => .ok (comments ++ ns, r)
  | .glued kind scan, _, p => readLexeme kind scan p
  | .where_ test, _, p => if test p.rest then .ok ([], p) else .error (max p.reach p.pos)
  | .then_ a b, left, p =>
    match read enter a left p with
    | .error m => .error m
    | .ok (ns, q) =>
      match read enter b left q with
      | .error m => .error m
      | .ok (ms, r) => .ok (ns ++ ms, r)
  | .or_ a b, left, p =>
    match read enter a left p with
    | .ok r => .ok r
    | .error m => read enter b left (p.reached m)
  | .many a, left, p => .ok (readMany (read enter a left) p.room p)
  | .node t a, left, p =>
    match read enter a left p with
    | .error m => .error m
    | .ok (ns, q) => .ok (enclose t p.pos ns, q)
  | .role f a, left, p =>
    match read enter a left p with
    | .error m => .error m
    | .ok (ns, q) => .ok (assign f ns, q)
  | .grow base step, left, p =>
    match read enter base left p with
    | .error m => .error m
    | .ok (ns, q) => .ok (readGrow (read enter step) q.room ns q)
  | .around t f a, left, p =>
    match read enter a left p with
    | .error m => .error m
    | .ok (ns, q) =>
      .ok (enclose t p.pos ((match f with | some g => assign g left | none => left) ++ ns), q)
  | .after test, left, p =>
    match (left.getLast?).map Node.kind with
    | some (.named t) => if test t then .ok ([], p) else .error p.reach
    | _ => .error p.reach
  | .unless a, left, p =>
    match read enter a left p with
    | .ok _ => .error (max p.reach p.pos)
    | .error _ => .ok ([], p)
  | .ahead a, left, p =>
    match read enter a left p with
    | .ok _ => .ok ([], p)
    | .error m => .error m
  | .form n, _, p => enter n p

end Rule

/-- A grammar: the rule of every form. -/
abbrev Grammar (N : Type) := N → Rule N

namespace Grammar

/-- Reads a form of a grammar.  Every form that is entered costs one unit of
fuel; without fuel nothing is read. -/
def read {N : Type} (g : Grammar N) : Nat → N → Place → Reading
  | 0, _, p => .error p.reach
  | n + 1, f, p => (g f).read (read g n) [] p

end Grammar

end Retarget.Syntax
