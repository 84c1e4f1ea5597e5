import Retarget.Yaml.Scalar

/-!
# Tokens of a YAML text

`Tokens.ofInput` cuts a text into tokens.  Indentation becomes tokens that open
and close block collections.  A key is only known to be one when its colon
comes, so `key` tokens are put in front of tokens that are there already; a
place where that may happen is a `Candidate`.

A fault ends the tokens; those before it are good.
-/

namespace Retarget.Yaml

/-- What a token is. -/
inductive TokenKind where
  | streamEnd
  | version (major minor : Nat)
  | tagPrefix (handle uri : String)
  | documentStart
  | documentEnd
  | blockSequence
  | blockMapping
  | blockEnd
  | flowSequence
  | flowSequenceEnd
  | flowMapping
  | flowMappingEnd
  | blockEntry
  | flowEntry
  | key
  | value
  | alias (name : String)
  | anchor (name : String)
  | tag (handle suffix : String)
  | scalar (text : String) (plain : Bool)
  deriving DecidableEq, Repr

/-- A token with its place. -/
structure Token where
  kind : TokenKind
  start : Mark
  stop : Mark
  deriving DecidableEq, Repr

/-- A place that may turn out to be the start of a key. -/
structure Candidate where
  /-- whether nothing but a key can stand there -/
  required : Bool
  /-- the number of tokens before it -/
  number : Nat
  mark : Mark
  index : Nat

/-- A text being cut into tokens. -/
structure Scan where
  input : Input
  tokens : Array Token
  /-- the indent of the innermost block collection, below zero outside -/
  indent : Int
  /-- the indents around it -/
  indents : List Int
  /-- the candidate of the block context -/
  outer : Option Candidate
  /-- the candidates of the flow collections, the innermost first -/
  flows : List (Option Candidate)
  /-- whether a key can start here -/
  keyAllowed : Bool

namespace Scan

/-- The start of a text. -/
def start (i : Input) : Scan :=
  ⟨i, #[], -1, [], none, [], true⟩

/-- Whether the text is inside a flow collection. -/
def inFlow (s : Scan) : Bool :=
  !s.flows.isEmpty

/-- The candidate of the innermost context. -/
def candidate (s : Scan) : Option Candidate :=
  match s.flows with
  | [] => s.outer
  | c :: _ => c

/-- Replaces the candidate of the innermost context. -/
def setCandidate (s : Scan) (c : Option Candidate) : Scan :=
  match s.flows with
  | [] => { s with outer := c }
  | _ :: rest => { s with flows := c :: rest }

/-- Adds a token. -/
def push (s : Scan) (k : TokenKind) (start stop : Mark) : Scan :=
  { s with tokens := s.tokens.push ⟨k, start, stop⟩ }

/-- Adds a token for the next characters. -/
def pushNext (s : Scan) (k : TokenKind) (n : Nat) : Scan :=
  let rest := s.input.skips n
  { s.push k s.input.mark rest.mark with input := rest }

/-- Puts a token in front of others. -/
def insertAt (s : Scan) (number : Nat) (k : TokenKind) (m : Mark) : Scan :=
  { s with tokens := (s.tokens.toList.insertIdx number ⟨k, m, m⟩).toArray }

/-- What to say about a key without its colon. -/
def missingColon {α : Type} (s : Scan) (c : Candidate) : Except Fault α :=
  s.input.fault "could not find expected ':'" (some ("while scanning a simple key", c.mark))

/-- Gives up the candidate of the innermost context. -/
def dropCandidate (s : Scan) : Except Fault Scan :=
  match s.candidate with
  | some c => if c.required then s.missingColon c else .ok (s.setCandidate none)
  | none => .ok s

/-- Gives up candidates that are too far away: on another line, or more than
1024 characters back. -/
def dropStale (s : Scan) : Except Fault Scan :=
  let stale (c : Candidate) : Bool :=
    c.mark.line < s.input.mark.line || c.index + 1024 < s.input.index
  let all := s.outer :: s.flows.reverse
  match all.findSome? fun c => c.filter fun c => stale c && c.required with
  | some c => s.missingColon c
  | none =>
    let keep (c : Option Candidate) : Option Candidate := c.filter fun c => !stale c
    .ok { s with outer := keep s.outer, flows := s.flows.map keep }

/-- Makes the place of the input a candidate, if a key can start there. -/
def addCandidate (s : Scan) : Except Fault Scan :=
  if s.keyAllowed then do
    let t ← s.dropCandidate
    let required := !s.inFlow && s.indent = s.input.mark.column
    return t.setCandidate (some ⟨required, s.tokens.size, s.input.mark, s.input.index⟩)
  else .ok s

/-- Opens a block collection if the column is deeper than the indent; the token
goes to a place among the tokens. -/
def openBlock (s : Scan) (column number : Nat) (k : TokenKind) (m : Mark) : Scan :=
  if !s.inFlow && s.indent < column then
    { s.insertAt number k m with indent := column, indents := s.indent :: s.indents }
  else s

/-- Closes the block collections that are deeper than a column. -/
def closeBlocks (column : Int) : List Int → Scan → Scan
  | [], s => s
  | outer :: rest, s =>
    if s.indent ≤ column then s
    else
      closeBlocks column rest
        { s.push .blockEnd s.input.mark s.input.mark with indent := outer, indents := rest }

/-- Closes the block collections that are deeper than a column; inside a flow
collection there are none to close. -/
def close (s : Scan) (column : Int) : Scan :=
  if s.inFlow then s else closeBlocks column s.indents s

/-- Skips blanks, comments and line ends before a token; `n` bounds the steps.
A line end outside of flow collections makes a key possible. -/
def toToken : Nat → Scan → Scan
  | 0, s => s
  | n + 1, s =>
    let (_, i) := s.input.takeWhile fun c =>
      c = ' ' || ((s.inFlow || !s.keyAllowed) && c = '\t')
    let (_, i) := if i.has 0 '#' then i.takeWhile fun c => !isBreak c else ([], i)
    if i.atBreak then
      toToken n { s with input := i.lineEnd.2, keyAllowed := s.keyAllowed || !s.inFlow }
    else { s with input := i }

/-! ### Directives -/

/-- Whether a character can belong to the name of an anchor or directive. -/
def isNameChar (c : Char) : Bool :=
  c.isAlphanum || c = '_' || c = '-'

/-- Reads a number of a version. -/
def versionNumber (start : Mark) (i : Input) : Except Fault (Nat × Input) :=
  let context := some ("while scanning a %YAML directive", start)
  let (ds, rest) := i.takeWhile Char.isDigit
  if ds.isEmpty then i.fault "did not find expected version number" context
  else if 9 < ds.length then (i.skips 9).fault "found extremely long version number" context
  else .ok (ds.foldl (fun n d => n * 10 + (d.toNat - 48)) 0, rest)

/-- Reads the two numbers of a version. -/
def version (start : Mark) (i : Input) : Except Fault (TokenKind × Input) := do
  let (_, i) := i.takeWhile isBlank
  let (major, i) ← versionNumber start i
  if !i.has 0 '.' then
    i.fault "did not find expected digit or '.' character"
      (some ("while scanning a %YAML directive", start))
  else
    let (minor, i) ← versionNumber start i.skip
    return (.version major minor, i)

/-- Whether a character can belong to the text of a tag. -/
def isTagChar (c : Char) : Bool :=
  isNameChar c || ";/?:@&=+$.!~*'()%,[]".toList.contains c

/-- Reads the handle and text that a tag directive joins. -/
def tagPrefix (start : Mark) (i : Input) : Except Fault (TokenKind × Input) :=
  let context := some ("while scanning a %TAG directive", start)
  let (_, i) := i.takeWhile isBlank
  if !i.has 0 '!' then i.fault "did not find expected '!'" context
  else
    let (name, j) := i.skip.takeWhile isNameChar
    let closed := j.has 0 '!'
    if !closed && !name.isEmpty then j.fault "did not find expected '!'" context
    else
      let handle := '!' :: name ++ (if closed then ['!'] else [])
      let j := if closed then j.skip else j
      if !j.atBlank then j.fault "did not find expected whitespace" context
      else
        let (_, j) := j.takeWhile isBlank
        let (uri, k) := j.takeWhile isTagChar
        if uri.isEmpty then j.fault "did not find expected tag URI" context
        else if !k.blankAt 0 then
          k.fault "did not find expected whitespace or line break" context
        else .ok (.tagPrefix (String.ofList handle) (String.ofList uri), k)

/-- Reads a directive with its line end. -/
def directive (s : Scan) : Except Fault Scan := do
  let start := s.input.mark
  let context := some ("while scanning a directive", start)
  let (name, i) := s.input.skip.takeWhile isNameChar
  if name.isEmpty then i.fault "could not find expected directive name" context
  if !i.blankAt 0 then i.fault "found unexpected non-alphabetical character" context
  let (k, i) ←
    if name = "YAML".toList then version start i
    else if name = "TAG".toList then tagPrefix start i
    else i.fault "found unknown directive name" context
  let stop := i.mark
  let (_, i) := i.takeWhile isBlank
  let (_, i) := if i.has 0 '#' then i.takeWhile fun c => !isBreak c else ([], i)
  if !i.atEnd && !i.atBreak then i.fault "did not find expected comment or line break" context
  return { s.push k start stop with input := i.lineEnd.2 }

/-! ### Anchors and tags -/

/-- Reads the name of an anchor or alias. -/
def anchorName (what : String) (s : Scan) : Except Fault (String × Input) :=
  let (name, rest) := s.input.skip.takeWhile isNameChar
  if name.isEmpty || !(rest.blankAt 0 || rest.startsAny "?:,]\x7d%@\x60") then
    rest.fault "did not find expected alphabetic or numeric character"
      (some ("while scanning " ++ what, s.input.mark))
  else .ok (String.ofList name, rest)

/-- Reads the handle and text of a tag. -/
def tagParts (i : Input) : Except Fault (TokenKind × Input) :=
  let context := some ("while parsing a tag", i.mark)
  if i.has 1 '<' then
    let (uri, rest) := (i.skips 2).takeWhile isTagChar
    if uri.isEmpty then rest.fault "did not find expected tag URI" context
    else if !rest.has 0 '>' then
      rest.fault "did not find the expected '>'" (some ("while scanning a tag", i.mark))
    else .ok (.tag "" (String.ofList uri), rest.skip)
  else
    let inFlowText (c : Char) : Bool := isTagChar c && !",[]".toList.contains c
    let (name, j) := i.skip.takeWhile isNameChar
    if j.has 0 '!' then
      let (suffix, rest) := j.skip.takeWhile inFlowText
      if suffix.isEmpty then rest.fault "did not find expected tag URI" context
      else .ok (.tag ("!" ++ String.ofList name ++ "!") (String.ofList suffix), rest)
    else
      let (more, rest) := j.takeWhile inFlowText
      let suffix := String.ofList (name ++ more)
      .ok (if suffix = "" then .tag "" "!" else .tag "!" suffix, rest)

/-- Reads a tag. -/
def readTag (s : Scan) : Except Fault (TokenKind × Input) := do
  let (k, rest) ← tagParts s.input
  if rest.blankAt 0 || (s.inFlow && rest.has 0 ',') then return (k, rest)
  else
    rest.fault "did not find expected whitespace or line break"
      (some ("while scanning a tag", s.input.mark))

/-! ### Tokens -/

/-- Adds a token that was read up to some input. -/
def finish (s : Scan) (k : TokenKind) (rest : Input) (keyAllowed : Bool) : Scan :=
  { s.push k s.input.mark rest.mark with input := rest, keyAllowed := keyAllowed }

/-- Adds the end of the text, on a line of its own. -/
def streamEnd (s : Scan) : Except Fault Scan := do
  let m := s.input.mark
  let m : Mark := if m.column = 0 then m else ⟨m.line + 1, 0⟩
  let s := { s with input := { s.input with mark := m } }.close (-1)
  let s ← s.dropCandidate
  return s.push .streamEnd m m

/-- Adds a marker between documents. -/
def marker (s : Scan) (k : TokenKind) : Except Fault Scan := do
  let s ← (s.close (-1)).dropCandidate
  return { s.pushNext k 3 with keyAllowed := false }

/-- Adds a dash of a block sequence. -/
def blockEntry (s : Scan) : Except Fault Scan := do
  if !s.inFlow && !s.keyAllowed then
    s.input.fault "block sequence entries are not allowed in this context" none
  let s := s.openBlock s.input.mark.column s.tokens.size .blockSequence s.input.mark
  let s ← s.dropCandidate
  return { s.pushNext .blockEntry 1 with keyAllowed := true }

/-- Adds a question mark in front of a key. -/
def explicitKey (s : Scan) : Except Fault Scan := do
  if !s.inFlow && !s.keyAllowed then
    s.input.fault "mapping keys are not allowed in this context" none
  let s := s.openBlock s.input.mark.column s.tokens.size .blockMapping s.input.mark
  let s ← s.dropCandidate
  return { s.pushNext .key 1 with keyAllowed := !s.inFlow }

/-- Adds a colon; the candidate before it becomes a key. -/
def value (s : Scan) : Except Fault Scan := do
  match s.candidate with
  | some c =>
    let s := s.insertAt c.number .key c.mark
    let s := s.openBlock c.mark.column c.number .blockMapping c.mark
    return { (s.setCandidate none).pushNext .value 1 with keyAllowed := false }
  | none =>
    if !s.inFlow && !s.keyAllowed then
      s.input.fault "mapping values are not allowed in this context" none
    let s := s.openBlock s.input.mark.column s.tokens.size .blockMapping s.input.mark
    return { s.pushNext .value 1 with keyAllowed := !s.inFlow }

/-- Opens a flow collection. -/
def openFlow (s : Scan) (k : TokenKind) : Except Fault Scan := do
  let s ← s.addCandidate
  return { s.pushNext k 1 with flows := none :: s.flows, keyAllowed := true }

/-- Closes a flow collection. -/
def closeFlow (s : Scan) (k : TokenKind) : Except Fault Scan := do
  let s ← s.dropCandidate
  return { s.pushNext k 1 with flows := s.flows.drop 1, keyAllowed := false }

/-- Adds a plain scalar. -/
def plain (s : Scan) : Except Fault Scan := do
  let s ← s.addCandidate
  let i := s.input
  let (text, lines, rest) ←
    plainWords s.inFlow (s.indent + 1).toNat i.mark (i.rest.length + 1) Gap.none i
  return s.finish (.scalar (String.ofList text) true) rest lines

/-- Whether a plain scalar can begin with the next character. -/
def startsPlain (s : Scan) : Bool :=
  let i := s.input
  (!i.blankAt 0 && !i.startsAny "-?:,[]\x7b\x7d#&*!|>'\"%@\x60") ||
    (i.has 0 '-' && !(i.peek 1).any isBlank) ||
    (!s.inFlow && i.startsAny "?:" && !i.blankAt 1)

/-- Adds the next token. -/
def next (s : Scan) : Except Fault Scan := do
  let s := toToken (s.input.rest.length + 1) s
  let s ← s.dropStale
  let s := s.close s.input.mark.column
  let i := s.input
  match i.rest with
  | [] => s.streamEnd
  | c :: _ =>
    if i.mark.column = 0 && c = '%' then
      directive { ← (s.close (-1)).dropCandidate with keyAllowed := false }
    else if i.opensWith '-' then s.marker .documentStart
    else if i.opensWith '.' then s.marker .documentEnd
    else if c = '[' then s.openFlow .flowSequence
    else if c = '\x7b' then s.openFlow .flowMapping
    else if c = ']' then s.closeFlow .flowSequenceEnd
    else if c = '\x7d' then s.closeFlow .flowMappingEnd
    else if c = ',' then
      return { (← s.dropCandidate).pushNext .flowEntry 1 with keyAllowed := true }
    else if c = '-' && i.blankAt 1 then s.blockEntry
    else if c = '?' && (s.inFlow || i.blankAt 1) then s.explicitKey
    else if c = ':' && (s.inFlow || i.blankAt 1) then s.value
    else if c = '*' then
      let s ← s.addCandidate
      let (name, rest) ← anchorName "an alias" s
      return s.finish (.alias name) rest false
    else if c = '&' then
      let s ← s.addCandidate
      let (name, rest) ← anchorName "an anchor" s
      return s.finish (.anchor name) rest false
    else if c = '!' then
      let s ← s.addCandidate
      let (k, rest) ← s.readTag
      return s.finish k rest false
    else if (c = '|' || c = '>') && !s.inFlow then
      let s ← s.dropCandidate
      let (text, rest) ← readBlock (c = '>') s.indent i
      return s.finish (.scalar (String.ofList text) false) rest true
    else if c = '\'' || c = '"' then
      let s ← s.addCandidate
      let (text, rest) ← readQuoted c i
      return s.finish (.scalar (String.ofList text) false) rest false
    else if s.startsPlain then s.plain
    else
      i.fault "found character that cannot start any token"
        (some ("while scanning for the next token", i.mark))

/-- Adds tokens up to the end of the text or a fault; `n` bounds their
number. -/
def run : Nat → Scan → List Token × Option Fault
  | 0, s => (s.tokens.toList, none)
  | n + 1, s =>
    match s.next with
    | .error f => (s.tokens.toList, some f)
    | .ok t =>
      if t.tokens.back?.any fun k => k.kind = .streamEnd then (t.tokens.toList, none)
      else run n t

/-- Whether a text can hold a character. -/
def isAllowed (c : Char) : Bool :=
  let n := c.toNat
  n = 0x09 || n = 0x0A || n = 0x0D || (0x20 ≤ n && n ≤ 0x7E) || n = 0x85 ||
    (0xA0 ≤ n && n ≤ 0xD7FF) || (0xE000 ≤ n && n ≤ 0xFFFD && n ≠ 0xFEFF) || 0x10000 ≤ n

/-- The number of bytes before the first character that a text cannot hold. -/
def firstRefused? (at_ : Nat) : List Char → Option Nat
  | [] => none
  | c :: r => if isAllowed c then firstRefused? (at_ + c.utf8Size) r else some at_

end Scan

/-- The tokens of a text up to its end or the first fault. -/
def tokens (text : String) : List Token × Option Fault :=
  let i := Input.ofText text
  match Scan.firstRefused? (text.utf8ByteSize - (i.rest.foldl (fun n c => n + c.utf8Size) 0)) i.rest with
  | some n =>
    let place := if n = 0 then "" else " at position " ++ toString n
    ([], some ⟨"control characters are not allowed" ++ place, .start, none⟩)
  | none => (Scan.start i).run (2 * i.rest.length + 4)

end Retarget.Yaml
