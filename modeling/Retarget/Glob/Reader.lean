import Retarget.Error
import Retarget.Glob.Pattern

/-!
# Reading globs

`Glob.ofText` reads a glob as it is usually written.  A star matches any bytes,
slashes too; two stars that make up a whole step of a path stand for any
directories; brackets hold a class of characters, braces hold alternatives, and
a backslash takes the next character literally.
-/

namespace Retarget.Glob

/-- Why a text is no glob. -/
inductive Cause where
  | unclosedClass
  | invalidRange (low high : Char)
  | unopenedAlternatives
  | unclosedAlternatives
  | danglingEscape
  deriving DecidableEq, Repr

/-- The wording of a cause. -/
def Cause.message : Cause → String
  | unclosedClass => "unclosed character class; missing ']'"
  | invalidRange a b => "invalid range; '" ++ a.toString ++ "' > '" ++ b.toString ++ "'"
  | unopenedAlternatives =>
    "unopened alternate group; missing '\x7b' (maybe escape '\x7d' with '[\x7d]'?)"
  | unclosedAlternatives =>
    "unclosed alternate group; missing '\x7d' (maybe escape '\x7b' with '[\x7b]'?)"
  | danglingEscape => "dangling '\\'"

/-- The inside of a class: its ranges, the last one first, and whether that one
waits for its end. -/
structure ClassDraft where
  ranges : List (Char × Char)
  waiting : Bool

namespace ClassDraft

/-- Adds a character, or ends the range that waits for it. -/
def add (d : ClassDraft) (c : Char) : Except Cause ClassDraft :=
  match d.waiting, d.ranges with
  | true, (a, _) :: rest =>
    if c < a then .error (.invalidRange a c) else .ok ⟨(a, c) :: rest, false⟩
  | _, rs => .ok ⟨(c, c) :: rs, false⟩

/-- The ranges; a hyphen at the end stands for itself. -/
def finish (d : ClassDraft) : List (Char × Char) :=
  (if d.waiting then ('-', '-') :: d.ranges else d.ranges).reverse

end ClassDraft

/-- Reads a class up to its closing bracket, which may also come first and then
stands for itself, as a hyphen does. -/
def readClass (first : Bool) (d : ClassDraft) : List Char →
    Except Cause (List (Char × Char) × List Char)
  | [] => .error .unclosedClass
  | c :: r =>
    if c = ']' && !first then .ok (d.finish, r)
    else if c = '-' && !first && !d.waiting then readClass false { d with waiting := true } r
    else
      match d.add c with
      | .error e => .error e
      | .ok d => readClass false d r

/-- The globs being read: the innermost branch, the branches before it in its
group, and the groups around it. -/
structure Draft where
  /-- the pieces of the innermost branch, the last one first -/
  pieces : List Piece
  /-- the finished branches of each open group with what stands before the
  group, the innermost group first -/
  groups : List (List (List Piece) × List Piece)

namespace Draft

/-- Adds a piece. -/
def push (d : Draft) (p : Piece) : Draft :=
  { d with pieces := p :: d.pieces }

/-- Opens a group. -/
def openGroup (d : Draft) : Draft :=
  ⟨[], ([], d.pieces) :: d.groups⟩

/-- Starts the next branch of a group; outside of groups a comma stands for
itself. -/
def nextBranch (d : Draft) : Draft :=
  match d.groups with
  | [] => d.push (.literal ',')
  | (branches, before) :: rest => ⟨[], (branches ++ [d.pieces.reverse], before) :: rest⟩

/-- Closes a group. -/
def closeGroup (d : Draft) : Except Cause Draft :=
  match d.groups with
  | [] => .error .unopenedAlternatives
  | (branches, before) :: rest =>
    .ok ⟨.alternatives (branches ++ [d.pieces.reverse]) :: before, rest⟩

/-- Adds two stars that are no step of a path. -/
def pushStars (d : Draft) : Draft :=
  (d.push .star).push .star

/-- Puts directories in the place of the slash before them. -/
def replaceSlash (d : Draft) (p : Piece) : Draft :=
  match d.pieces with
  | .leading :: _ => d
  | .trailing :: _ => d
  | _ :: rest => { d with pieces := p :: rest }
  | [] => d.push p

end Draft

/-- Takes two stars into account, given the character before them and what
follows; gives what is left to read. -/
def readStars (d : Draft) (prev : Option Char) (rest : List Char) : Draft × List Char :=
  if d.pieces.isEmpty then
    match rest with
    | [] => (d.push .leading, [])
    | '/' :: r => (d.push .leading, r)
    | _ => (d.pushStars, rest)
  else if prev ≠ some '/' then (d.pushStars, rest)
  else
    match rest with
    | [] => (d.replaceSlash .trailing, [])
    | '/' :: r => (d.replaceSlash .between, r)
    | c :: r =>
      if (c = ',' || c = '\x7d') && !d.groups.isEmpty then (d.replaceSlash .trailing, c :: r)
      else (d.pushStars, rest)

/-- Reads a glob, given the character before; `n` bounds the steps. -/
def read : Nat → Draft → Option Char → List Char → Except Cause Draft
  | 0, d, _, _ => .ok d
  | _, d, _, [] => .ok d
  | n + 1, d, prev, c :: r =>
    match c with
    | '?' => read n (d.push .any) (some c) r
    | '*' =>
      match r with
      | '*' :: r =>
        let (d, rest) := readStars d prev r
        read n d (if rest.length < r.length then some '/' else some '*') rest
      | _ => read n (d.push .star) (some c) r
    | '[' =>
      let (negated, inside) := match r with
        | '!' :: t => (true, t)
        | '^' :: t => (true, t)
        | _ => (false, r)
      match readClass true ⟨[], false⟩ inside with
      | .error e => .error e
      | .ok (ranges, rest) => read n (d.push (.oneOf negated ranges)) (some ']') rest
    | '\x7b' => read n d.openGroup (some c) r
    | '\x7d' =>
      match d.closeGroup with
      | .error e => .error e
      | .ok d => read n d (some c) r
    | ',' => read n d.nextBranch (some c) r
    | '\\' =>
      match r with
      | [] => .error .danglingEscape
      | e :: r => read n (d.push (.literal e)) (some e) r
    | _ => read n (d.push (.literal c)) (some c) r

/-- The pieces that a text spells. -/
def readPieces (text : String) : Except Cause (List Piece) :=
  match read text.length ⟨[], []⟩ none text.toList with
  | .error e => .error e
  | .ok d => if d.groups.isEmpty then .ok d.pieces.reverse else .error .unclosedAlternatives

/-- The glob that a text spells. -/
def ofText (text : String) : Except Failure Glob :=
  match readPieces text with
  | .ok ps => .ok (ofPieces ps)
  | .error e => .error (.glob ("error parsing glob '" ++ text ++ "': " ++ e.message))

end Retarget.Glob
