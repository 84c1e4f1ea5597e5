import Retarget.Extraction
import Retarget.Relocation
import Retarget.Syntax.Query

/-!
# Relocating a fragment

Options that a call read from the workspace are read by a plugin from its
project.  `Relocation.normalize` spells the path literals of a fragment anew:
the strings under keys on a list, alone or inside an array.  What it cannot
move it leaves alone and reports.
-/

namespace Retarget

open Syntax

namespace Relocation

/-- The keys whose strings are paths unless a profile says otherwise. -/
def defaultKeys : List String :=
  ["outputPath", "index", "main", "tsConfig", "polyfills", "postcssConfig", "babelConfig",
   "styles", "scripts", "assets", "input", "replace", "with", "includePaths", "entryPath",
   "staticFilePath", "proxyConfig"]

/-- A fragment after relocation. -/
structure Normalized where
  fragment : Fragment
  /-- the literals that changed, with their new spelling -/
  replaced : List (String × String)
  /-- the literals that no path from the new host reaches -/
  unresolved : List String
  deriving DecidableEq, Repr

/-- A string as the value of a named pair. -/
def stringPair : Pattern :=
  .named (some .pair)
    [.captured "key" (.inRole .key
      (.oneOf [.named (some .propertyIdentifier) [], .named (some .string) []])),
     .captured "value" (.inRole .value (.named (some .string) []))]

/-- A string inside an array as the value of a named pair. -/
def arrayPair : Pattern :=
  .named (some .pair)
    [.captured "key" (.inRole .key
      (.oneOf [.named (some .propertyIdentifier) [], .named (some .string) []])),
     .inRole .value (.named (some .array) [.captured "value" (.named (some .string) [])])]

/-- Splits a quoted literal into its quote and what it quotes. -/
def splitLiteral (text : List Char) : Option (Char × List Char) :=
  match text with
  | q :: r =>
    if (q = '\'' || q = '"') && r.getLast? = some q then some (q, r.dropLast) else none
  | [] => none

/-- A key without its quotes. -/
def unquote (key : List Char) : List Char :=
  match splitLiteral key with
  | some (_, inner) => inner
  | none => key

/-- Whether a literal starts with a URL scheme. -/
def hasScheme (cs : List Char) : Bool :=
  match cs with
  | [] => false
  | c :: r =>
    let rest := r.dropWhile fun c => c.isAlphanum || "+.-".toList.contains c
    c.isAlpha && "://".toList.isPrefixOf rest

/-- Whether a literal can be a path inside the workspace. -/
def isRelocatable (literal : List Char) : Bool :=
  !literal.isEmpty && !literal.contains '\\' && literal.head? != some '/' && !hasScheme literal

/-- A change to a text: the bytes that go and what comes. -/
structure Edit where
  start : Nat
  stop : Nat
  text : String
  deriving DecidableEq, Repr

/-- What relocation has found so far. -/
structure Progress where
  edits : List Edit
  replaced : List (String × String)
  unresolved : List String

/-- Takes one match into account.  A literal that was edited before is left
alone. -/
def consider (keys : List String) (old new : Path) (cs : List Char) (p : Progress) (m : Match) :
    Progress :=
  match m.capture? "key", m.capture? "value" with
  | some key, some value =>
    if !keys.contains (String.ofList (unquote (key.textIn cs).toList)) then p
    else if p.edits.any fun e => e.start = value.start - 1 then p
    else match splitLiteral (value.textIn cs).toList with
      | none => p
      | some (quote, inner) =>
        if !isRelocatable inner then p
        else
          let literal := String.ofList inner
          match Path.rebase literal old new with
          | none => { p with unresolved := p.unresolved ++ [literal] }
          | some moved =>
            if moved = literal then p
            else
              { p with
                edits := p.edits ++ [⟨value.start - 1, value.stop - 1,
                  String.singleton quote ++ moved ++ String.singleton quote⟩]
                replaced := p.replaced ++ [(literal, moved)] }
  | _, _ => p

/-- Replaces bytes of a text. -/
def applyEdit (cs : List Char) (e : Edit) : List Char :=
  sliceChars cs 0 e.start ++ e.text.toList ++ sliceChars cs e.stop (Place.bytes cs)

/-- Makes edits, the last one in the text first, so that the places of the
others stay valid. -/
def applyEdits (text : String) (edits : List Edit) : String :=
  String.ofList ((edits.mergeSort fun a b => b.start ≤ a.start).foldl applyEdit text.toList)

/-- Spells the path literals of a fragment, written for one host, for another
one.  The fragment is read in parentheses, so that an object is an expression;
one that cannot be read this way is left as it is. -/
def normalize (keys : List String) (f : Fragment) (old new : Path) : Normalized :=
  if f.isEmpty || keys.isEmpty then ⟨f, [], []⟩
  else
    let cs := '(' :: f.text.toList ++ [')']
    match Dialect.typescript.parseChars cs with
    | .error _ => ⟨f, [], []⟩
    | .ok tree =>
      let found := (Query.runAll [⟨[stringPair]⟩, ⟨[arrayPair]⟩] [] cs tree).foldl
        (consider keys old new cs) ⟨[], [], []⟩
      ⟨f.withText (applyEdits f.text found.edits), found.replaced, found.unresolved⟩

end Relocation

end Retarget
