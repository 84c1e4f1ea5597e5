import Retarget.Error
import Retarget.Syntax.Parse

/-!
# Languages of config files

A config file is read in the dialect that its extension names.  `Dialect.parse`
accepts a text exactly when its syntax tree holds nothing out of place, and
otherwise says where the first such node stands.
-/

namespace Retarget.Syntax

/-- A place in a text as people count it: row and column from zero, the column
in bytes. -/
structure Point where
  row : Nat
  column : Nat
  deriving DecidableEq, Repr

/-- The point of a byte in a text. -/
def pointIn (cs : List Char) (byte : Nat) : Point :=
  go cs byte ⟨0, 0⟩
where
  /-- Counts on from a point. -/
  go : List Char → Nat → Point → Point
    | [], _, at_ => at_
    | c :: r, n, at_ =>
      if n = 0 then at_
      else go r (n - c.utf8Size) (if c = '\n' then ⟨at_.row + 1, 0⟩
        else ⟨at_.row, at_.column + c.utf8Size⟩)

/-- The characters between two bytes of a text. -/
def sliceChars : List Char → Nat → Nat → List Char
  | [], _, _ => []
  | c :: r, start, stop =>
    if stop = 0 then []
    else if start = 0 then c :: sliceChars r 0 (stop - c.utf8Size)
    else sliceChars r (start - c.utf8Size) (stop - c.utf8Size)

/-- The text between two bytes. -/
def slice (cs : List Char) (start stop : Nat) : String :=
  String.ofList (sliceChars cs start stop)

/-- The text that a node covers. -/
def Node.textIn (cs : List Char) (n : Node) : String :=
  slice cs n.start n.stop

namespace Dialect

/-- Both dialects, in the order in which they are asked. -/
def all : List Dialect :=
  [.typescript, .tsx]

/-- The name of a dialect. -/
def name : Dialect → String
  | .typescript => "typescript"
  | .tsx => "tsx"

/-- The file extensions of a dialect. -/
def extensions : Dialect → List String
  | .typescript => ["ts", "mts", "cts", "js", "mjs", "cjs"]
  | .tsx => ["tsx", "jsx"]

/-- The same text in small letters, as far as ASCII goes. -/
def lowered (s : String) : List Char :=
  s.toList.map Char.toLower

/-- Whether a file extension belongs to a dialect; case does not matter. -/
def hasExtension (d : Dialect) (e : String) : Bool :=
  d.extensions.any fun x => lowered x = lowered e

/-- The dialect of a file extension. -/
def ofExtension? (e : String) : Option Dialect :=
  all.find? fun d => d.hasExtension e

/-- The dialect with a name; case does not matter. -/
def ofName? (n : String) : Option Dialect :=
  all.find? fun d => lowered d.name = lowered n

/-- The dialect of a file. -/
def ofPath? (p : Path) : Option Dialect :=
  p.extension?.bind ofExtension?

/-- The dialect of a file, or why there is none. -/
def ofPath (p : Path) : Except Failure Dialect :=
  match ofPath? p with
  | some d => .ok d
  | none => .error (.unsupportedLanguage (p.extension?.getD "unknown"))

/-- What is wrong with a node out of place. -/
def complaint (n : Node) : String :=
  match n.kind with
  | .missing s => "missing '" ++ s ++ "'"
  | _ => "unexpected syntax"

/-- The syntax tree of a text, or where the text is no program. -/
def parseChars (d : Dialect) (cs : List Char) : Except Failure Node :=
  let tree := Tree.ofChars d cs
  match Cursor.firstError tree with
  | none => .ok tree
  | some bad =>
    let at_ := pointIn cs bad.start
    .error (.parse ⟨"<source>"⟩ (at_.row + 1) (at_.column + 1) (complaint bad))

/-- The syntax tree of a text, or where the text is no program. -/
def parse (d : Dialect) (text : String) : Except Failure Node :=
  d.parseChars text.toList

end Dialect

end Retarget.Syntax
