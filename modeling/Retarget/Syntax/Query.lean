import Retarget.Language

/-!
# Tree queries

A `Pattern` describes a node: its type, the role it plays, some of its children
in order, and the names under which parts of it are captured.  `Query.ofText`
reads the written form of patterns, and `Query.run` finds all their matches in
a tree, node after node in pre-order.
-/

namespace Retarget.Syntax

/-- A description of a node. -/
inductive Pattern where
  /-- any node -/
  | any
  /-- a named node, of the given type if there is one, with children that match
  in order, others between them -/
  | named (type : Option NodeType) (children : List Pattern)
  /-- a keyword or mark with the given spelling -/
  | token (spelling : String)
  /-- a node that one of several patterns describes -/
  | oneOf (choices : List Pattern)
  /-- a node in a role -/
  | inRole (field : Field) (inner : Pattern)
  /-- a node that is captured under a name -/
  | captured (name : String) (inner : Pattern)

/-- What a match captures: nodes with their names. -/
abbrev Captures := List (String × Node)

namespace Pattern

/-- Every node of a row with the nodes to its right. -/
def suffixes : List Node → List (Node × List Node)
  | [] => []
  | n :: ns => (n, ns) :: suffixes ns

mutual

/-- The ways in which a node matches a pattern. -/
def matchNode (cs : List Char) : Pattern → Node → List Captures
  | any, _ => [[]]
  | named t ps, n =>
    if (match t with | none => n.isNamed | some t => n.is t)
    then matchChildren cs ps n.children else []
  | token s, n => if n.kind = .token && n.textIn cs = s then [[]] else []
  | oneOf ps, n => matchAny cs ps n
  | inRole f p, n => if n.field = some f then matchNode cs p n else []
  | captured name p, n => (matchNode cs p n).map ((name, n) :: ·)

/-- The ways in which a node matches one of several patterns. -/
def matchAny (cs : List Char) : List Pattern → Node → List Captures
  | [], _ => []
  | p :: ps, n => matchNode cs p n ++ matchAny cs ps n

/-- The ways in which patterns match some of a row of nodes, in order. -/
def matchChildren (cs : List Char) : List Pattern → List Node → List Captures
  | [], _ => [[]]
  | p :: ps, ns =>
    (suffixes ns).flatMap fun (n, rest) =>
      (matchNode cs p n).flatMap fun here =>
        (matchChildren cs ps rest).map fun later => here ++ later

end

end Pattern

/-- A list of patterns, run together. -/
structure Query where
  patterns : List Pattern

/-- A match of a query: which pattern, and what it captured. -/
structure Match where
  pattern : Nat
  captures : Captures

namespace Match

/-- The first byte of the first captured node; zero without captures. -/
def start (m : Match) : Nat :=
  match m.captures.map fun c => c.2.start with
  | [] => 0
  | n :: ns => ns.foldl min n

/-- The first node captured under a name. -/
def capture? (m : Match) (name : String) : Option Node :=
  (m.captures.find? fun c => c.1 = name).map Prod.snd

end Match

namespace Query

/-- What is wrong with a written query. -/
inductive Fault where
  | badSyntax
  | badNodeType
  | badField
  deriving DecidableEq, Repr

/-- A fault and the text that is left where it was found. -/
abbrev Trouble := Fault × List Char

/-- Drops blanks and comments, which run from a semicolon to the end of the
line. -/
def skip (inComment : Bool) : List Char → List Char
  | [] => []
  | c :: r =>
    if inComment then skip (c != '\n') r
    else if Text.isBlank c then skip false r
    else if c = ';' then skip true r
    else c :: r

/-- The text from its next lexeme on. -/
def ahead (cs : List Char) : List Char :=
  skip false cs

/-- Whether a character may stand in a name. -/
def isNameChar (c : Char) : Bool :=
  c.isAlphanum || c = '_' || c = '-' || c = '.'

/-- Whether a character may open a name. -/
def isNameStart (c : Char) : Bool :=
  c.isAlphanum || c = '_' || c = '-'

/-- A name at the head of a text and what follows it. -/
def takeName (cs : List Char) : String × List Char :=
  (String.ofList (cs.takeWhile isNameChar), cs.dropWhile isNameChar)

/-- Whether a text starts with a name. -/
def startsName (cs : List Char) : Bool :=
  (cs.head?.map isNameStart).getD false

/-- Reads the captures behind a pattern; `n` bounds their number. -/
def readCaptures : Nat → Pattern → List Char → Except Trouble (Pattern × List Char)
  | 0, p, cs => .ok (p, cs)
  | n + 1, p, cs =>
    match ahead cs with
    | '@' :: r =>
      if startsName r then
        let (name, r') := takeName r
        readCaptures n (.captured name p) r'
      else .error (.badSyntax, r)
    | r => .ok (p, r)

mutual

/-- Reads a pattern; `n` bounds the depth and length of what is read. -/
def readPattern : Nat → List Char → Except Trouble (Pattern × List Char)
  | 0, cs => .error (.badSyntax, cs)
  | n + 1, cs =>
    match cs with
    | '(' :: r =>
      let r := ahead r
      if startsName r then
        let (name, r') := takeName r
        let type := if name = "_" then some none else (NodeType.ofName? name).map some
        match type with
        | none => .error (.badNodeType, r)
        | some t => do
          let (ps, rest) ← readRow n ')' (ahead r')
          readCaptures n (.named t ps) rest
      else .error (.badSyntax, r)
    | '[' :: r => do
      let (ps, rest) ← readRow n ']' (ahead r)
      readCaptures n (.oneOf ps) rest
    | '"' :: r =>
      match r.dropWhile (· != '"') with
      | [] => .error (.badSyntax, [])
      | _ :: rest => readCaptures n (.token (String.ofList (r.takeWhile (· != '"')))) rest
    | _ =>
      if !startsName cs then .error (.badSyntax, cs)
      else
        let (name, r) := takeName cs
        if name = "_" then readCaptures n .any r
        else match ahead r with
          | ':' :: r' => do
            let (p, rest) ← readPattern n (ahead r')
            match Field.ofName? name, p with
            | none, _ => .error (.badField, cs)
            | some f, .captured c q => .ok (.captured c (.inRole f q), rest)
            | some f, q => .ok (.inRole f q, rest)
          | _ => .error (.badSyntax, cs)

/-- Reads patterns up to a closing bracket. -/
def readRow : Nat → Char → List Char → Except Trouble (List Pattern × List Char)
  | 0, _, cs => .error (.badSyntax, cs)
  | n + 1, close, cs =>
    match cs with
    | [] => .error (.badSyntax, [])
    | c :: r =>
      if c = close then .ok ([], r)
      else do
        let (p, rest) ← readPattern n (c :: r)
        let (ps, rest') ← readRow n close (ahead rest)
        return (p :: ps, rest')

end

/-- Reads patterns up to the end of the text; `n` bounds their number. -/
def readAll : Nat → List Char → Except Trouble (List Pattern)
  | 0, _ => .ok []
  | n + 1, cs =>
    match ahead cs with
    | [] => .ok []
    | r => do
      let (p, rest) ← readPattern (2 * r.length + 2) r
      let ps ← readAll n rest
      return p :: ps

/-- The line of a text that holds a byte, with its number and its first byte. -/
def lineAt (byte : Nat) : Nat → Nat → List String → Option (Nat × Nat × String)
  | _, _, [] => none
  | row, start, l :: ls =>
    let stop := start + l.utf8ByteSize + 1
    if byte < stop then some (row, start, l) else lineAt byte (row + 1) stop ls

/-- The wording of a fault. -/
def complaint (text : String) (t : Trouble) : String :=
  let offset := text.utf8ByteSize - (String.ofList t.2).utf8ByteSize
  let ls := Text.lines text
  let (row, start, line) := match lineAt offset 0 0 ls with
    | some (row, start, l) => (row, start, some l)
    | none => (ls.length, ls.foldl (fun n l => n + l.utf8ByteSize + 1) 0, none)
  let name := String.ofList
    (t.2.takeWhile fun c => c.isAlphanum || c = '_' || c = '-')
  let where_ := "Query error at " ++ toString (row + 1) ++ ":" ++ toString (offset - start + 1)
  match t.1 with
  | .badNodeType => where_ ++ ". Invalid node type \"" ++ name ++ "\""
  | .badField => where_ ++ ". Invalid field name \"" ++ name ++ "\""
  | .badSyntax =>
    where_ ++ ". Invalid syntax:\n" ++ match line with
      | none => "Unexpected EOF"
      | some l => l ++ "\n" ++ String.ofList (List.replicate (offset - start) ' ') ++ "^"

/-- Reads a written query. -/
def ofText (text : String) : Except Failure Query :=
  let cs := text.toList
  match readAll (cs.length + 1) cs with
  | .ok ps => .ok ⟨ps⟩
  | .error t => .error (.query (complaint text t))

/-- All matches of a query in a tree over a text, node after node. -/
def run (q : Query) (cs : List Char) (tree : Node) : List Match :=
  tree.preorder.flatMap fun n =>
    q.patterns.zipIdx.flatMap fun (p, i) => (p.matchNode cs n).map fun c => ⟨i, c⟩

/-- Keeps the captures with the given names, and the matches that still have
one; without names everything stays. -/
def restrict (names : List String) (ms : List Match) : List Match :=
  if names = [] then ms
  else
    let kept := ms.map fun m => { m with captures := m.captures.filter fun c => names.contains c.1 }
    kept.filter fun m => !m.captures.isEmpty

/-- All matches of several queries, sorted by the byte where their first
capture starts; matches that start together keep their order. -/
def runAll (queries : List Query) (names : List String) (cs : List Char) (tree : Node) :
    List Match :=
  (restrict names (queries.flatMap fun q => q.run cs tree)).mergeSort
    fun a b => a.start ≤ b.start

/-- The matches of written queries in a text: the text is read first, then the
queries in turn. -/
def find (d : Dialect) (queries names : List String) (text : String) :
    Except Failure (List Match) := do
  let cs := text.toList
  let tree ← d.parseChars cs
  let qs ← queries.mapM ofText
  return runAll qs names cs tree

end Query

end Retarget.Syntax
