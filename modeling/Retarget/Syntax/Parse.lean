import Retarget.Syntax.Grammar
import Retarget.Syntax.Cursor

/-!
# Reading a program

`Tree.ofText` turns a text into a syntax tree.  It always gives one: a text
that is no program gives a tree with one node out of place, which says where
the text goes wrong.  The place is that of the cheapest repair: a lexeme
supposed before the offending one, or a run of lexemes left out.
-/

namespace Retarget.Syntax

/-- The longer marks of the language; a longer one comes before its heads. -/
def longMarks : List (List Char) :=
  [">>>=", "...", "===", "!==", "**=", "<<=", ">>=", ">>>", "&&=", "||=", "??=", "=>", "==",
   "!=", "<=", ">=", "&&", "||", "??", "?.", "++", "--", "+=", "-=", "*=", "/=", "%=", "&=",
   "|=", "^=", "<<", ">>", "**"].map String.toList

namespace Lexeme

/-- A quoted text on one line, up to its closing quote or the end of the
line. -/
def quotedRun (quote : Char) : List Char → Nat
  | [] => 0
  | '\n' :: _ => 0
  | ['\\'] => 1
  | '\\' :: _ :: r => quotedRun quote r + 2
  | c :: r => if c = quote then 1 else quotedRun quote r + 1

/-- The lexeme at the head of a text, whatever it is. -/
def any : Scan := fun cs =>
  match cs with
  | [] => none
  | c :: r =>
    if c = '\'' || c = '"' then some (1 + quotedRun c r)
    else match word cs with
      | some n => some n
      | none =>
        match number cs with
        | some n => some n
        | none =>
          match longMarks.find? fun m => m.isPrefixOf cs with
          | some m => some m.length
          | none => some 1

/-- The lexemes of a text before a given byte, each as its place and the place
behind it; `n` bounds their number. -/
def before (limit : Nat) : Nat → Place → List (Place × Place)
  | 0, _ => []
  | n + 1, p =>
    let (_, q) := p.skipGaps p.room
    if limit ≤ q.pos then []
    else match any q.rest with
      | none => []
      | some k =>
        let r := q.advance k
        (q, r) :: before limit n r

end Lexeme

/-- A place where a text is no program, and the lexeme that was supposed there,
if it was one. -/
structure Flaw where
  offset : Nat
  missing : Option String
  deriving DecidableEq, Repr

/-- A way past an offending lexeme: what it costs, the flaw it reports and the
text that it makes, with the bytes of that text up to the offending lexeme. -/
structure Repair where
  cost : Nat
  flaw : Flaw
  text : List Char
  upTo : Nat

namespace Repair

/-- What can be supposed before the offending lexeme, with its name. -/
def supposed : List (List Char × String) :=
  [([')'], ")"), ([']'], "]"), (['\x7d'], "\x7d"), ([' ', 'x', ' '], "identifier")]

/-- Supposes a lexeme behind the last one before the offending one. -/
def supposing (cs : List Char) (seen : List (Place × Place)) (e : Place) : List Repair :=
  match seen.getLast? with
  | none => []
  | some (_, p) =>
    supposed.map fun (inserted, name) =>
      { cost := 610
        flaw := ⟨p.pos, some name⟩
        text := cs.take (cs.length - p.rest.length) ++ inserted ++ p.rest
        upTo := e.pos + inserted.length }

/-- Leaves out a run of lexemes up to the offending one.  A name before a colon
goes with the colon. -/
def omitting (cs : List Char) (seen : List (Place × Place)) (e : Place) : List Repair :=
  seen.zipIdx.filterMap fun ((p, _), i) =>
    if p.rest.head? = some ':' then none
    else
      let gone := p.rest.take (p.rest.length - e.rest.length)
      some
        { cost := 500 + 100 * (seen.length - i) + gone.length + 30 * gone.count '\n'
          flaw := ⟨p.pos, none⟩
          text := cs.take (cs.length - p.rest.length) ++ e.rest
          upTo := p.pos }

/-- Leaves out the offending lexeme. -/
def skipping (cs : List Char) (e : Place) : List Repair :=
  match Lexeme.any e.rest with
  | none => []
  | some k =>
    [{ cost := 600 + k
       flaw := ⟨e.pos, none⟩
       text := cs.take (cs.length - e.rest.length) ++ e.rest.drop k
       upTo := e.pos }]

/-- Whether a repaired text reads past the offending lexeme, and does not end
too early instead. -/
def helps (d : Dialect) (r : Repair) : Bool :=
  match readProgram d r.text with
  | .ok _ => true
  | .error m => r.upTo < m && m != Place.bytes r.text

/-- The cheapest repair that helps, the first one if several cost the same. -/
def cheapest? (d : Dialect) (repairs : List Repair) : Option Repair :=
  (repairs.mergeSort fun a b => a.cost ≤ b.cost).find? (helps d)

/-- The flaw of a text that is no program, where `reach` is the furthest byte at
which a lexeme was wanted in vain.  A text that no repair helps is flawed as a
whole. -/
def locate (d : Dialect) (cs : List Char) (reach : Nat) : Flaw :=
  let start := Place.start cs
  let whole : Flaw := ⟨(start.skipGaps start.room).2.pos, none⟩
  let seen := Lexeme.before reach start.room start
  let e := ((seen.getLast?.map Prod.snd).getD start).skipGaps start.room |>.2
  if e.rest = [] then whole
  else
    let repairs := supposing cs seen e ++ skipping cs e ++ omitting cs seen e
    ((cheapest? d repairs).map Repair.flaw).getD whole

end Repair

namespace Tree

/-- The node that marks a flaw. -/
def flawNode (f : Flaw) : Node :=
  .mk (match f.missing with | some s => .missing s | none => .error) none f.offset f.offset []

/-- The syntax tree of a text. -/
def ofChars (d : Dialect) (cs : List Char) : Node :=
  let children := match readProgram d cs with
    | .ok ns => ns
    | .error m => [flawNode (Repair.locate d cs m)]
  .mk (.named .program) none 0 (Place.bytes cs) children

/-- The syntax tree of a text. -/
def ofText (d : Dialect) (text : String) : Node :=
  ofChars d text.toList

end Tree

end Retarget.Syntax
