import Retarget.Language
import Retarget.OrderedMap
import Retarget.Staging

/-!
# Extracting call arguments

A config file carries its configuration as the first argument of well-known
calls.  `Extraction.extract` finds, for every requested callee, the calls and
constructor expressions of that name in pre-order, and takes the first
argument verbatim, without evaluating anything.  One walk serves all callees
at once.
-/

namespace Retarget

open Syntax

/-- The first argument of a call, as it was written. -/
structure Fragment where
  /-- the name of the called function or class -/
  callee : String
  /-- the text of the argument; empty if there is none -/
  text : String
  /-- the file it comes from -/
  source : Path
  /-- the first byte of the argument -/
  start : Nat
  /-- the byte behind the argument -/
  stop : Nat
  /-- the line of the call, from one -/
  line : Nat
  deriving DecidableEq, Repr

namespace Fragment

/-- Whether the call had no argument. -/
def isEmpty (f : Fragment) : Bool :=
  f.text = ""

/-- The same fragment with another text. -/
def withText (f : Fragment) (text : String) : Fragment :=
  { f with text := text }

end Fragment

/-- The requested callees in order, each with its fragment if there is one. -/
structure Extracted where
  entries : List (String × Option Fragment)
  deriving DecidableEq, Repr

namespace Extracted

/-- The fragment of a callee. -/
def get? (e : Extracted) (callee : String) : Option Fragment :=
  (e.entries.find? fun x => x.1 = callee).bind Prod.snd

/-- Replaces the fragment of a callee that was requested. -/
def set (e : Extracted) (callee : String) (f : Option Fragment) : Extracted :=
  ⟨e.entries.map fun x => if x.1 = callee then (x.1, f) else x⟩

/-- The requested callees without a fragment. -/
def absent (e : Extracted) : List String :=
  (e.entries.filter fun x => x.2.isNone).map Prod.fst

/-- The number of requested callees. -/
def size (e : Extracted) : Nat :=
  e.entries.length

/-- Whether nothing was requested. -/
def isEmpty (e : Extracted) : Bool :=
  e.entries.isEmpty

end Extracted

namespace Extraction

/-- A call or constructor expression with a bare name: the name, the arguments
and the node itself. -/
structure Call where
  name : String
  arguments : Option Node
  node : Node

/-- The call that a node is, if its callee is a bare name. -/
def callOf? (cs : List Char) (n : Node) : Option Call := do
  let role ← if n.is .callExpression then some Field.function
    else if n.is .newExpression then some Field.constructorName else none
  let callee ← n.child? role
  if callee.is .identifier then some ⟨callee.textIn cs, n.child? .arguments, n⟩ else none

/-- The first named node among arguments that is no comment. -/
def firstArgument? (arguments : Node) : Option Node :=
  arguments.namedChildren.find? fun n => !n.is .comment

/-- The fragment that a call carries. -/
def fragmentOf (cs : List Char) (source : Path) (c : Call) : Fragment :=
  let line := (pointIn cs c.node.start).row + 1
  match c.arguments.bind firstArgument? with
  | some a => ⟨c.name, a.textIn cs, source, a.start, a.stop, line⟩
  | none =>
    let at_ := (c.arguments.map Node.start).getD 0
    ⟨c.name, "", source, at_, at_, line⟩

/-- The calls of a tree, outer ones first. -/
def calls (cs : List Char) (tree : Node) : List Call :=
  (Cursor.walk tree).filterMap (callOf? cs)

/-- Drops what was requested before. -/
def distinct (names : List String) : List String :=
  names.foldl (fun seen n => if seen.contains n then seen else seen ++ [n]) []

/-- The fragments found of each requested callee, in the order of the requests. -/
abbrev Hits := OrderedMap String (List Fragment)

/-- Adds the fragment of a call to those of its callee, if that was requested.
Without `strict` only the first one of a callee is kept. -/
def record (strict : Bool) (cs : List Char) (source : Path) (found : Hits) (c : Call) : Hits :=
  match found.get? c.name with
  | none => found
  | some fs =>
    if !strict && !fs.isEmpty then found
    else found.insert c.name (fs ++ [fragmentOf cs source c])

/-- What one walk over a tree finds of all requested callees. -/
def hits (strict : Bool) (callees : List String) (cs : List Char) (source : Path)
    (tree : Node) : Hits :=
  (calls cs tree).foldl (record strict cs source) ((distinct callees).map fun c => (c, []))

/-- The entry of one callee; with `strict`, a second fragment of it is an error. -/
def entry (strict : Bool) (source : Path) (found : String × List Fragment) :
    Except Failure (String × Option Fragment) :=
  if strict && found.2.length > 1 then
    .error (.ambiguousMatch source found.1 found.2.length)
  else .ok (found.1, found.2.head?)

/-- The fragments of the requested callees in a syntax tree. -/
def ofTree (strict : Bool) (callees : List String) (cs : List Char) (source : Path)
    (tree : Node) : Except Failure Extracted := do
  let entries ← (hits strict callees cs source tree).mapM (entry strict source)
  return ⟨entries⟩

/-- The fragments of the requested callees in a text. -/
def ofText (strict : Bool) (callees : List String) (d : Dialect) (source : Path)
    (text : String) : Except Failure Extracted := do
  let cs := text.toList
  let tree ← d.parseChars cs
  ofTree strict callees cs source tree

/-- The fragments of the requested callees in a text that has no file. -/
def extract (strict : Bool) (callees : List String) (d : Dialect) (text : String) :
    Except Failure Extracted :=
  ofText strict callees d ⟨"<source>"⟩ text

/-- The fragments of the requested callees in a file, in the language that its
extension names. -/
def ofFile (strict : Bool) (callees : List String) (t : Staging) (p : Path) :
    Except Failure Extracted := do
  let d ← Dialect.ofPath p
  let text ← t.read p.location
  match ofText strict callees d p text with
  | .ok e => .ok e
  | .error f => .error (f.atPath p)

end Extraction

end Retarget
