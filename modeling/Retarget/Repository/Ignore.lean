import Retarget.Disk
import Retarget.Text.Blank

/-!
# Ignored files

A rule of an ignore file matches names, or paths below the folder of the file
if it has a slash inside.  `Rule.ofLine?` reads a rule and `Rule.applies` says
whether it matches; of several rules in a file the last one that matches
decides.
-/

namespace Retarget.Repository

/-- A mark in the pattern of a name. -/
inductive NameMark where
  | char (c : Char)
  | any
  | star
  | oneOf (negated : Bool) (ranges : List (Char × Char))
  deriving DecidableEq, Repr

/-- A pattern for one step of a path, or for any steps. -/
inductive PathMark where
  | name (ms : List NameMark)
  | deep
  deriving DecidableEq, Repr

/-- A rule of an ignore file. -/
structure Rule where
  negated : Bool
  folderOnly : Bool
  whole : Bool
  pattern : List PathMark
  deriving DecidableEq, Repr

namespace NameMark

/-- Whether marks match a name. -/
def matchAll : List NameMark → List Char → Bool
  | [], cs => cs.isEmpty
  | .star :: ms, cs =>
    matchAll ms cs ||
      match cs with
      | [] => false
      | _ :: rest => matchAll (.star :: ms) rest
  | m :: ms, cs =>
    match cs with
    | [] => false
    | c :: rest =>
      let here := match m with
        | .char x => x = c
        | .any => true
        | .oneOf negated ranges => negated != ranges.any fun r => r.1 ≤ c && c ≤ r.2
        | .star => false
      here && matchAll ms rest

/-- The ranges that the inside of a class spells. -/
def rangesOf : List Char → List (Char × Char)
  | a :: '-' :: b :: rest => (a, b) :: rangesOf rest
  | a :: rest => (a, a) :: rangesOf rest
  | [] => []

/-- Reads a class up to its closing bracket, which does not come first. -/
def readClass : List Char → Option (List (Char × Char) × List Char)
  | [] => none
  | c :: rest =>
    let inner := rest.takeWhile (· ≠ ']')
    match rest.drop inner.length with
    | [] => none
    | _ :: rest => some (rangesOf (c :: inner), rest)

/-- Reads at most `n` marks of a name. -/
def readWithin : Nat → List Char → List NameMark
  | 0, _ => []
  | _, [] => []
  | n + 1, c :: rest =>
    match c with
    | '*' => .star :: readWithin n (rest.dropWhile (· = '*'))
    | '?' => .any :: readWithin n rest
    | '\\' =>
      match rest with
      | [] => [.char '\\']
      | x :: rest => .char x :: readWithin n rest
    | '[' =>
      let (negated, inner) := match rest with
        | '!' :: r => (true, r)
        | '^' :: r => (true, r)
        | r => (false, r)
      match readClass inner with
      | some (ranges, rest) => .oneOf negated ranges :: readWithin n rest
      | none => .char '[' :: readWithin n rest
    | _ => .char c :: readWithin n rest

/-- The marks that a text spells. -/
def ofChars (cs : List Char) : List NameMark :=
  readWithin cs.length cs

end NameMark

/-- Whether a pattern matches a path.  Any steps at the end are at least one. -/
def matchPath : List PathMark → List String → Bool
  | [], names => names.isEmpty
  | .deep :: ps, names =>
    if ps.isEmpty then !names.isEmpty
    else matchPath ps names ||
      match names with
      | [] => false
      | _ :: rest => matchPath (.deep :: ps) rest
  | .name ms :: ps, names =>
    match names with
    | [] => false
    | n :: rest => NameMark.matchAll ms n.toList && matchPath ps rest

namespace Rule

/-- Drops blanks at the end, unless a backslash keeps the last one. -/
def trimLine (cs : List Char) : List Char :=
  let body := Text.trimEnd cs
  if body.getLast? = some '\\' && body.length < cs.length then body ++ [' '] else body

/-- The pattern of one step. -/
def step (piece : List Char) : PathMark :=
  if piece = ['*', '*'] then .deep else .name (NameMark.ofChars piece)

/-- Reads a line of an ignore file; blank lines and comments are no rules. -/
def ofLine? (line : List Char) : Option Rule :=
  let cs := trimLine line
  match cs with
  | [] => none
  | '#' :: _ => none
  | _ =>
    let (negated, cs) := match cs with
      | '!' :: rest => (true, rest)
      | _ => (false, cs)
    let folderOnly := cs.getLast? = some '/'
    let cs := if folderOnly then cs.dropLast else cs
    let whole := cs.contains '/'
    let pieces := (Text.splitAtAll (· = '/') cs).filter (· ≠ [])
    if pieces = [] then none
    else some ⟨negated, folderOnly, whole, pieces.map step⟩

/-- The rules of an ignore file. -/
def ofText (text : String) : List Rule :=
  (Text.splitAtAll (· = '\n') text.toList).filterMap ofLine?

/-- Whether a rule matches the names of a path below the folder of its file. -/
def applies (r : Rule) (names : List String) (isFolder : Bool) : Bool :=
  (!r.folderOnly || isFolder) &&
    if r.whole then matchPath r.pattern names
    else matchPath r.pattern names.getLast?.toList

/-- What the rules of a file say about a path: whether it is ignored, if they
say anything. -/
def verdict (rules : List Rule) (names : List String) (isFolder : Bool) : Option Bool :=
  (rules.reverse.find? fun r => r.applies names isFolder).map fun r => !r.negated

end Rule

end Retarget.Repository
