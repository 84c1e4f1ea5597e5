/-!
# Edit scripts

`Script.between` finds a shortest script of deletions and insertions that turns
one list of lines into another: it searches from both ends for the middle of
such a script and goes on in both halves.  `Script.compact` then moves
insertions along equal lines so that neighbouring ones meet, and
`Script.merge` joins what is deleted and inserted at one place.
-/

namespace Retarget

/-- What a step of a script does with the lines it covers. -/
inductive Tag where
  | equal
  | delete
  | insert
  | replace
  deriving DecidableEq, Repr

/-- A step of a script: the lines from one place of the old list and from one
place of the new list, with their numbers. -/
structure Edit where
  tag : Tag
  old : Nat
  oldSize : Nat
  new : Nat
  newSize : Nat
  deriving DecidableEq, Repr

namespace Edit

/-- Equal lines. -/
def equal (old new size : Nat) : Edit := ⟨.equal, old, size, new, size⟩

/-- Deleted lines. -/
def delete (old size new : Nat) : Edit := ⟨.delete, old, size, new, 0⟩

/-- Inserted lines. -/
def insert (old new size : Nat) : Edit := ⟨.insert, old, 0, new, size⟩

/-- Whether a step covers no lines. -/
def isEmpty (e : Edit) : Bool := e.oldSize = 0 && e.newSize = 0

/-- The step with its start moved and its size changed, on the sides where it
covers lines. -/
def adjust (e : Edit) (back forth shrink grow : Nat) : Edit :=
  let size (n : Nat) : Nat := n - shrink + grow
  { e with
    old := e.old + forth - back
    new := e.new + forth - back
    oldSize := if e.tag = .insert then 0 else size e.oldSize
    newSize := if e.tag = .delete then 0 else size e.newSize }

/-- The step moved towards the start. -/
def shiftLeft (e : Edit) (n : Nat) : Edit := e.adjust n 0 0 0

/-- The step moved towards the end. -/
def shiftRight (e : Edit) (n : Nat) : Edit := e.adjust 0 n 0 0

/-- The step with lines added before it. -/
def growLeft (e : Edit) (n : Nat) : Edit := e.adjust n 0 0 n

/-- The step with lines added behind it. -/
def growRight (e : Edit) (n : Nat) : Edit := e.adjust 0 0 0 n

/-- The step without its last lines. -/
def shrinkLeft (e : Edit) (n : Nat) : Edit := e.adjust 0 0 n 0

/-- The step without its first lines. -/
def shrinkRight (e : Edit) (n : Nat) : Edit := e.adjust 0 n n 0

end Edit

namespace Script

/-- The two lists of lines. -/
structure Sides where
  old : Array String
  new : Array String

/-- A stretch of both lists. -/
structure Box where
  old : Nat
  oldEnd : Nat
  new : Nat
  newEnd : Nat
  deriving Repr

/-- The number of equal lines from two places on, at most `n`. -/
def commonHead (s : Sides) : Nat → Nat → Nat → Nat
  | 0, _, _ => 0
  | n + 1, i, j =>
    match s.old[i]?, s.new[j]? with
    | some a, some b => if a = b then commonHead s n (i + 1) (j + 1) + 1 else 0
    | _, _ => 0

/-- The number of equal lines before two places, at most `n`. -/
def commonTail (s : Sides) : Nat → Nat → Nat → Nat
  | n + 1, i + 1, j + 1 =>
    match s.old[i]?, s.new[j]? with
    | some a, some b => if a = b then commonTail s n i j + 1 else 0
    | _, _ => 0
  | _, _, _ => 0

/-- The furthest place reached on each diagonal. -/
structure Reach where
  offset : Nat
  places : Array Nat

namespace Reach

/-- The reach of a search that has not started, for a number of rounds. -/
def start (rounds : Nat) : Reach :=
  ⟨rounds + 1, Array.replicate (2 * rounds + 3) 0⟩

/-- The place on a diagonal. -/
def at_ (r : Reach) (k : Int) : Nat :=
  r.places.getD (k + r.offset).toNat 0

/-- Sets the place on a diagonal. -/
def set (r : Reach) (k : Int) (x : Nat) : Reach :=
  { r with places := r.places.setIfInBounds (k + r.offset).toNat x }

/-- The place where a search goes on along a diagonal in a round. -/
def step (r : Reach) (d k : Int) : Nat :=
  if k = -d || (k ≠ d && r.at_ (k - 1) < r.at_ (k + 1)) then r.at_ (k + 1) else r.at_ (k - 1) + 1

end Reach

/-- A bound for the rounds of a search. -/
def rounds (n m : Nat) : Nat :=
  (n + m + 1) / 2 + 1

/-- One round from the start: goes along the diagonals from `k` down, as many as
given, and stops where it meets the search from the end. -/
def forward (s : Sides) (b : Box) (back : Reach) (d : Int) :
    Nat → Int → Reach → Reach × Option (Nat × Nat)
  | 0, _, r => (r, none)
  | count + 1, k, r =>
    let n := b.oldEnd - b.old
    let m := b.newEnd - b.new
    let delta : Int := n - m
    let x := r.step d k
    let y : Int := x - k
    let gain := if x < n && 0 ≤ y && y < m then
        commonHead s (min (n - x) (m - y.toNat)) (b.old + x) (b.new + y.toNat) else 0
    let r := r.set k (x + gain)
    if delta % 2 = 1 && (k - delta).natAbs ≤ (d - 1) && n ≤ r.at_ k + back.at_ (-(k - delta)) then
      (r, some (x + b.old, y.toNat + b.new))
    else forward s b back d count (k - 2) r

/-- One round from the end: goes along the diagonals from `k` down, as many as
given, and stops where it meets the search from the start. -/
def backward (s : Sides) (b : Box) (front : Reach) (d : Int) :
    Nat → Int → Reach → Reach × Option (Nat × Nat)
  | 0, _, r => (r, none)
  | count + 1, k, r =>
    let n := b.oldEnd - b.old
    let m := b.newEnd - b.new
    let delta : Int := n - m
    let x := r.step d k
    let y : Int := x - k
    let gain := if x < n && 0 ≤ y && y < m then
        commonTail s (min (n - x) (m - y.toNat)) (b.old + (n - x)) (b.new + (m - y.toNat)) else 0
    let x := x + gain
    let y := y + gain
    let r := r.set k x
    if delta % 2 = 0 && (k - delta).natAbs ≤ d && n ≤ r.at_ k + front.at_ (-(k - delta)) then
      (r, some (n - x + b.old, m - y.toNat + b.new))
    else backward s b front d count (k - 2) r

/-- Searches for the middle of a shortest script, round after round. -/
def searchMiddle (s : Sides) (b : Box) : Nat → Nat → Reach → Reach → Option (Nat × Nat)
  | 0, _, _, _ => none
  | left + 1, d, front, back =>
    match forward s b back d (d + 1) d front with
    | (_, some p) => some p
    | (front, none) =>
      match backward s b front d (d + 1) d back with
      | (_, some p) => some p
      | (back, none) => searchMiddle s b left (d + 1) front back

/-- The middle of a shortest script for a stretch. -/
def middle (s : Sides) (b : Box) : Option (Nat × Nat) :=
  let limit := rounds (b.oldEnd - b.old) (b.newEnd - b.new)
  searchMiddle s b limit 0 (.start limit) (.start limit)

/-- A shortest script for a stretch; `fuel` bounds how often it is halved. -/
def solve (s : Sides) : Nat → Box → List Edit
  | 0, _ => []
  | fuel + 1, b =>
    let head := commonHead s (min (b.oldEnd - b.old) (b.newEnd - b.new)) b.old b.new
    let i := b.old + head
    let j := b.new + head
    let tail := commonTail s (min (b.oldEnd - i) (b.newEnd - j)) b.oldEnd b.newEnd
    let iEnd := b.oldEnd - tail
    let jEnd := b.newEnd - tail
    let before := if head = 0 then [] else [Edit.equal b.old b.new head]
    let behind := if tail = 0 then [] else [Edit.equal iEnd jEnd tail]
    let inner :=
      if i = iEnd && j = jEnd then []
      else if j = jEnd then [Edit.delete i (iEnd - i) j]
      else if i = iEnd then [Edit.insert i j (jEnd - j)]
      else match middle s ⟨i, iEnd, j, jEnd⟩ with
        | some (x, y) => solve s fuel ⟨i, x, j, y⟩ ++ solve s fuel ⟨x, iEnd, y, jEnd⟩
        | none => [Edit.delete i (iEnd - i) j, Edit.insert i j (jEnd - j)]
    before ++ inner ++ behind

/-- A shortest script between two lists of lines. -/
def raw (s : Sides) : List Edit :=
  solve s (s.old.size + s.new.size + 1) ⟨0, s.old.size, 0, s.new.size⟩

/-! ### Compaction

A script is split at one step: what comes before it, nearest first, the step
itself, and what comes behind. -/

/-- Moves a step towards the start as far as it goes, joining what it meets;
`fuel` bounds the moves. -/
def moveUp (s : Sides) : Nat → List Edit → Edit → List Edit → List Edit × Edit × List Edit
  | 0, before, e, behind => (before, e, behind)
  | _ + 1, [], e, behind => ([], e, behind)
  | fuel + 1, p :: before, e, behind =>
    match e.tag, p.tag with
    | .insert, .equal =>
      let n := commonTail s (min p.oldSize e.newSize) (p.old + p.oldSize) (e.new + e.newSize)
      if n = 0 then
        if p.isEmpty then moveUp s fuel before e behind else (p :: before, e, behind)
      else
        let behind := match behind with
          | q :: rest =>
            if q.tag = .equal then q.growLeft n :: rest
            else .equal (p.old + p.oldSize - n) (e.new + e.newSize - n) n :: q :: rest
          | [] => [.equal (p.old + p.oldSize - n) (e.new + e.newSize - n) n]
        let p := p.shrinkLeft n
        moveUp s fuel (if p.isEmpty then before else p :: before) (e.shiftLeft n) behind
    | _, .equal => if p.isEmpty then moveUp s fuel before e behind else (p :: before, e, behind)
    | .insert, .insert => moveUp s fuel before (p.growRight e.newSize) behind
    | .delete, .delete => moveUp s fuel before (p.growRight e.oldSize) behind
    | _, _ => moveUp s fuel before e (p :: behind)

/-- Moves a step towards the end as far as it goes, joining what it meets;
`fuel` bounds the moves. -/
def moveDown (s : Sides) : Nat → List Edit → Edit → List Edit → List Edit × Edit × List Edit
  | 0, before, e, behind => (before, e, behind)
  | _ + 1, before, e, [] => (before, e, [])
  | fuel + 1, before, e, q :: behind =>
    match e.tag, q.tag with
    | .insert, .equal =>
      let n := commonHead s (min q.oldSize e.newSize) q.old e.new
      if n = 0 then
        if q.isEmpty then moveDown s fuel before e behind else (before, e, q :: behind)
      else
        let before := match before with
          | p :: rest =>
            if p.tag = .equal then p.growRight n :: rest else .equal q.old e.new n :: p :: rest
          | [] => [.equal q.old e.new n]
        let q := q.shrinkRight n
        moveDown s fuel before (e.shiftRight n) (if q.isEmpty then behind else q :: behind)
    | _, .equal => if q.isEmpty then moveDown s fuel before e behind else (before, e, q :: behind)
    | .insert, .insert => moveDown s fuel before (e.growRight q.newSize) behind
    | .delete, .delete => moveDown s fuel before (e.growRight q.oldSize) behind
    | _, _ => moveDown s fuel (q :: before) e behind

/-- Moves every step with a tag up and then down; `fuel` bounds the steps. -/
def settle (s : Sides) (tag : Tag) (moves : Nat) : Nat → List Edit → List Edit → List Edit
  | 0, before, behind => before.reverse ++ behind
  | _ + 1, before, [] => before.reverse
  | fuel + 1, before, e :: behind =>
    if e.tag = tag then
      let (before, e, behind) := moveUp s moves before e behind
      let (before, e, behind) := moveDown s moves before e behind
      settle s tag moves fuel (e :: before) behind
    else settle s tag moves fuel (e :: before) behind

/-- Moves deletions and then insertions so that neighbours meet. -/
def compact (s : Sides) (script : List Edit) : List Edit :=
  let moves := 4 * (s.old.size + s.new.size + script.length) + 4
  settle s .insert moves moves [] (settle s .delete moves moves [] script)

/-! ### Merging -/

/-- The steps waiting to be merged: equal lines, a deletion, an insertion. -/
structure Waiting where
  same : Option Edit
  gone : Option Edit
  come : Option Edit

/-- The merged change of a deletion and an insertion at one place. -/
def changeOf (w : Waiting) : List Edit :=
  match w.gone, w.come with
  | some d, some i => [⟨.replace, d.old, d.oldSize, i.new, i.newSize⟩]
  | some d, none => [d]
  | none, some i => [i]
  | none, none => []

/-- Merges steps: equal lines that meet, and deletions with insertions between
equal lines. -/
def mergeFrom (w : Waiting) : List Edit → List Edit
  | [] => w.same.toList ++ changeOf w
  | e :: rest =>
    match e.tag with
    | .equal =>
      changeOf w ++ mergeFrom ⟨some (match w.same with
        | some p => p.growRight e.oldSize
        | none => e), none, none⟩ rest
    | .insert =>
      w.same.toList ++ mergeFrom ⟨none, w.gone, some (match w.come with
        | some p => p.growRight e.newSize
        | none => e)⟩ rest
    | _ =>
      w.same.toList ++ mergeFrom ⟨none, some (match w.gone with
        | some p => p.growRight e.oldSize
        | none => e), w.come⟩ rest

/-- Merges the steps of a script. -/
def merge (script : List Edit) : List Edit :=
  mergeFrom ⟨none, none, none⟩ script

/-- The script between two lists of lines. -/
def between (s : Sides) : List Edit :=
  merge (compact s (raw s))

end Script

end Retarget
