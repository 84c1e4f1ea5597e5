import Retarget.Disk

/-!
# Conditions

`Condition.evaluate` decides a condition that is given as words: primaries with
one operand or two, joined by negation, conjunction and disjunction.
-/

namespace Retarget.Shell.Condition

/-- Why words are no condition. -/
inductive Flaw where
  | missingArgument (after : String)
  | unaryExpected (word : String)
  | binaryExpected (word : String)
  | extraArgument (word : String)
  | invalidInteger (word : String)

/-- The wording of a flaw. -/
def Flaw.message : Flaw → String
  | missingArgument w => "missing argument after '" ++ w ++ "'"
  | unaryExpected w => "'" ++ w ++ "': unary operator expected"
  | binaryExpected w => "'" ++ w ++ "': binary operator expected"
  | extraArgument w => "extra argument '" ++ w ++ "'"
  | invalidInteger w => "invalid integer '" ++ w ++ "'"

/-- The number a word spells. -/
def integer (w : String) : Except Flaw Int :=
  match w.toInt? with
  | some n => .ok n
  | none => .error (.invalidInteger w)

/-- Decides a primary with one operand. -/
def unary? (d : Disk) (op x : String) : Option Bool :=
  let l := Path.location ⟨x⟩
  match op with
  | "-n" => some (x ≠ "")
  | "-z" => some (x = "")
  | "-e" => some (x ≠ "" && (d.at? l).isSome)
  | "-f" => some (x ≠ "" && d.isFile l)
  | "-d" => some (x ≠ "" && d.isFolder l)
  | "-s" => some (x ≠ "" && match d.content l with
      | .ok c => !c.bytes.isEmpty
      | .error f => f = .isFolder)
  | "-r" | "-w" => some (x ≠ "" && (d.at? l).isSome)
  | "-x" => some (x ≠ "" && d.isFolder l)
  | "-h" | "-L" => some false
  | _ => none

/-- Decides a primary with two operands. -/
def binary? (x op y : String) : Option (Except Flaw Bool) :=
  let numbers (p : Int → Int → Bool) : Except Flaw Bool :=
    match integer x, integer y with
    | .ok a, .ok b => .ok (p a b)
    | .error f, _ => .error f
    | _, .error f => .error f
  match op with
  | "=" | "==" => some (.ok (x = y))
  | "!=" => some (.ok (x ≠ y))
  | "-eq" => some (numbers (· == ·))
  | "-ne" => some (numbers (· != ·))
  | "-lt" => some (numbers (· < ·))
  | "-le" => some (numbers (· ≤ ·))
  | "-gt" => some (numbers (· > ·))
  | "-ge" => some (numbers (· ≥ ·))
  | _ => none

/-- Decides a single word. -/
def one (x : String) : Bool :=
  x ≠ ""

/-- Decides two words. -/
def two (d : Disk) (x y : String) : Except Flaw Bool :=
  if x = "!" then .ok (!one y)
  else match unary? d x y with
    | some b => .ok b
    | none =>
      if x.toList.head? = some '-' then .error (.unaryExpected x)
      else .error (.missingArgument y)

/-- Decides any number of words: terms joined by `-a`, which binds closer, and
`-o`.  `all` is the conjunction read so far and `any` the disjunction before
it. -/
def many (d : Disk) (any all : Bool) : Nat → List String → Except Flaw Bool
  | 0, _ => .ok any
  | _, [] => .ok (any || all)
  | n + 1, ws =>
    match ws with
    | "-a" :: rest => term n (fun b => (any, all && b)) rest
    | "-o" :: rest => term n (fun b => (any || all, b)) rest
    | w :: _ => .error (.extraArgument w)
    | [] => .ok (any || all)
where
  /-- Reads a term and goes on behind it. -/
  term (n : Nat) (join : Bool → Bool × Bool) (ws : List String) : Except Flaw Bool := do
    let (negated, ws) := match ws with
      | "!" :: rest => (true, rest)
      | _ => (false, ws)
    let (b, rest) ← match ws with
      | x :: op :: y :: rest =>
        match binary? x op y with
        | some r => r.map fun b => (b, rest)
        | none =>
          match unary? d x op with
          | some b => .ok (b, y :: rest)
          | none => .ok (one x, op :: y :: rest)
      | [x, y] =>
        match unary? d x y with
        | some b => .ok (b, [])
        | none => .ok (one x, [y])
      | [x] => .ok (one x, [])
      | [] => .error (.missingArgument "!")
    let (any, all) := join (b != negated)
    many d any all n rest

/-- Decides a condition. -/
def evaluate (d : Disk) (ws : List String) : Except Flaw Bool :=
  match ws with
  | [] => .ok false
  | [x] => .ok (one x)
  | [x, y] => two d x y
  | [x, op, y] =>
    match binary? x op y with
    | some r => r
    | none =>
      if x = "!" then (two d op y).map (!·)
      else if op = "-a" then .ok (one x && one y)
      else if op = "-o" then .ok (one x || one y)
      else .error (.binaryExpected op)
  | ws => many d false true (ws.length + 1) ("-a" :: ws)

end Retarget.Shell.Condition
