import Retarget.Yaml.Token

/-!
# Events of a YAML text

The tokens of a document form a tree, written here as the list of its events in
order: scalars, aliases, and the starts and ends of collections.
`Document.ofText` gives the events of the first document of a text.  A fault
ends the events; those before it are good, and the fault only matters to a
reader who gets that far.
-/

namespace Retarget.Yaml

/-- A step through the tree of a document. -/
inductive Event where
  | scalar (text : String) (plain : Bool)
  /-- stands for what begins at the event with a number -/
  | alias (target : Nat)
  | sequence
  | sequenceEnd
  | mapping
  | mappingEnd
  /-- the only event of a text without a document -/
  | void
  deriving DecidableEq, Repr

/-- An event with its place. -/
structure Located where
  mark : Mark
  event : Event
  deriving DecidableEq, Repr

/-- The events of a document being read. -/
structure Draft where
  tokens : List Token
  /-- the events so far, the last one first -/
  events : List Located
  /-- the anchors so far with the number of the event they name -/
  anchors : List (String × Nat)
  /-- the handles of tags that are declared -/
  handles : List String

/-- Reading tokens into a draft; a fault keeps the events before it. -/
abbrev Reading (α : Type) := ExceptT Fault (StateM Draft) α

namespace Reading

/-- The next token; behind the last one stands the fault of the text. -/
def peek (f : Option Fault) : Reading Token := do
  match (← get).tokens with
  | t :: _ => return t
  | [] => throw (f.getD ⟨"", .start, none⟩)

/-- Goes past the next token. -/
def skip : Reading Unit :=
  modify fun d => { d with tokens := d.tokens.drop 1 }

/-- Adds an event. -/
def emit (m : Mark) (e : Event) : Reading Unit :=
  modify fun d => { d with events := ⟨m, e⟩ :: d.events }

/-- Adds the event of a node that is left out. -/
def emitEmpty (m : Mark) : Reading Unit :=
  emit m (.scalar "" true)

/-- Names the event that comes next. -/
def name (anchor : Option String) : Reading Unit :=
  match anchor with
  | none => pure ()
  | some a => modify fun d => { d with anchors := (a, d.events.length) :: d.anchors }

/-- Refuses a token. -/
def refuse {α : Type} (problem : String) (t : Token) (context : String) (m : Mark) : Reading α :=
  throw ⟨problem, t.start, some (context, m)⟩

/-- What stands before a node: its place, an anchor, and a tag. -/
structure Properties where
  mark : Mark
  anchor : Option String
  tag : Option (String × Mark)

/-- Reads an anchor and a tag in either order; `n` bounds their number. -/
def properties (f : Option Fault) : Nat → Properties → Reading Properties
  | 0, p => pure p
  | n + 1, p => do
    let t ← peek f
    match t.kind, p.anchor, p.tag with
    | .anchor a, none, _ =>
      skip
      properties f n { p with anchor := some a }
    | .tag h _, _, none =>
      skip
      properties f n { p with tag := some (h, t.start) }
    | _, _, _ => pure p

/-- Refuses a tag whose handle is not declared. -/
def checkTag (p : Properties) : Reading Unit := do
  match p.tag with
  | some (h, m) =>
    if h ≠ "" && !(← get).handles.contains h then
      throw ⟨"found undefined tag handle", m, some ("while parsing a node", p.mark)⟩
  | none => pure ()

/-- Whether a token is one of some kinds. -/
def isOneOf (t : Token) (ks : List TokenKind) : Bool :=
  ks.contains t.kind

mutual

/-- Reads a node; `block` allows block collections, `flat` a sequence that is
not deeper than its key.  `n` bounds the steps. -/
def node (f : Option Fault) : Nat → Bool → Bool → Reading Unit
  | 0, _, _ => pure ()
  | n + 1, block, flat => do
    let t ← peek f
    match t.kind with
    | .alias a =>
      match (← get).anchors.find? fun x => x.1 = a with
      | some (_, k) =>
        skip
        emit t.start (.alias k)
      | none => throw ⟨"unknown anchor", t.start, none⟩
    | _ =>
      let p ← properties f 2 ⟨t.start, none, none⟩
      checkTag p
      let t ← peek f
      name p.anchor
      match t.kind, block, flat with
      | .blockEntry, _, true =>
        emit p.mark .sequence
        flatEntries f n
      | .scalar s plain, _, _ =>
        skip
        emit p.mark (.scalar s (plain && p.tag.isNone))
      | .flowSequence, _, _ =>
        skip
        emit p.mark .sequence
        flowItems f n t.start true
      | .flowMapping, _, _ =>
        skip
        emit p.mark .mapping
        flowMembers f n t.start true
      | .blockSequence, true, _ =>
        skip
        emit p.mark .sequence
        blockEntries f n t.start
      | .blockMapping, true, _ =>
        skip
        emit p.mark .mapping
        blockMembers f n t.start
      | _, _, _ =>
        if p.anchor.isSome || p.tag.isSome then emitEmpty p.mark
        else
          refuse "did not find expected node content" t
            (if block then "while parsing a block node" else "while parsing a flow node") p.mark

/-- Reads a node, or none if one of some tokens comes next. -/
def nodeUnless (f : Option Fault) : Nat → List TokenKind → Mark → Bool → Bool → Reading Unit
  | 0, _, _, _, _ => pure ()
  | n + 1, stops, m, block, flat => do
    if isOneOf (← peek f) stops then emitEmpty m else node f n block flat

/-- Reads the entries of a block sequence. -/
def blockEntries (f : Option Fault) : Nat → Mark → Reading Unit
  | 0, _ => pure ()
  | n + 1, m => do
    let t ← peek f
    match t.kind with
    | .blockEntry =>
      skip
      nodeUnless f n [.blockEntry, .blockEnd] t.stop true false
      blockEntries f n m
    | .blockEnd =>
      skip
      emit t.start .sequenceEnd
    | _ => refuse "did not find expected '-' indicator" t "while parsing a block collection" m

/-- Reads the entries of a sequence that is not deeper than its key. -/
def flatEntries (f : Option Fault) : Nat → Reading Unit
  | 0 => pure ()
  | n + 1 => do
    let t ← peek f
    match t.kind with
    | .blockEntry =>
      skip
      nodeUnless f n [.blockEntry, .key, .value, .blockEnd] t.stop true false
      flatEntries f n
    | _ => emit t.start .sequenceEnd

/-- Reads the members of a block mapping. -/
def blockMembers (f : Option Fault) : Nat → Mark → Reading Unit
  | 0, _ => pure ()
  | n + 1, m => do
    let t ← peek f
    match t.kind with
    | .key =>
      skip
      nodeUnless f n [.key, .value, .blockEnd] t.stop true true
      let v ← peek f
      if v.kind = .value then
        skip
        nodeUnless f n [.key, .value, .blockEnd] v.stop true true
      else emitEmpty v.start
      blockMembers f n m
    | .blockEnd =>
      skip
      emit t.start .mappingEnd
    | _ => refuse "did not find expected key" t "while parsing a block mapping" m

/-- Reads the items of a flow sequence. -/
def flowItems (f : Option Fault) : Nat → Mark → Bool → Reading Unit
  | 0, _, _ => pure ()
  | n + 1, m, first => do
    let t ← peek f
    let t ←
      if t.kind = .flowSequenceEnd || first then pure t
      else if t.kind = .flowEntry then do
        skip
        peek f
      else refuse "did not find expected ',' or ']'" t "while parsing a flow sequence" m
    match t.kind with
    | .flowSequenceEnd =>
      skip
      emit t.start .sequenceEnd
    | .key =>
      skip
      emit t.start .mapping
      pairKey f n
      flowItems f n m false
    | _ =>
      node f n false false
      flowItems f n m false

/-- Reads the only pair of a mapping inside a flow sequence. -/
def pairKey (f : Option Fault) : Nat → Reading Unit
  | 0 => pure ()
  | n + 1 => do
    let t ← peek f
    if isOneOf t [.value, .flowEntry, .flowSequenceEnd] then
      skip
      emitEmpty t.stop
    else node f n false false
    let v ← peek f
    if v.kind = .value then
      skip
      nodeUnless f n [.flowEntry, .flowSequenceEnd] (← peek f).start false false
    else emitEmpty v.start
    emit (← peek f).start .mappingEnd

/-- Reads the members of a flow mapping. -/
def flowMembers (f : Option Fault) : Nat → Mark → Bool → Reading Unit
  | 0, _, _ => pure ()
  | n + 1, m, first => do
    let t ← peek f
    let t ←
      if t.kind = .flowMappingEnd || first then pure t
      else if t.kind = .flowEntry then do
        skip
        peek f
      else refuse "did not find expected ',' or '\x7d'" t "while parsing a flow mapping" m
    match t.kind with
    | .flowMappingEnd =>
      skip
      emit t.start .mappingEnd
    | .key =>
      skip
      nodeUnless f n [.value, .flowEntry, .flowMappingEnd] (← peek f).start false false
      let v ← peek f
      if v.kind = .value then
        skip
        nodeUnless f n [.flowEntry, .flowMappingEnd] (← peek f).start false false
      else emitEmpty v.start
      flowMembers f n m false
    | _ =>
      node f n false false
      emitEmpty (← peek f).start
      flowMembers f n m false

end

/-- Reads the directives before a document; `n` bounds their number. -/
def directives (f : Option Fault) : Nat → Bool → Reading Unit
  | 0, _ => pure ()
  | n + 1, versioned => do
    let t ← peek f
    match t.kind with
    | .version major minor =>
      if versioned then throw ⟨"found duplicate %YAML directive", t.start, none⟩
      if major ≠ 1 || (minor ≠ 1 && minor ≠ 2) then
        throw ⟨"found incompatible YAML document", t.start, none⟩
      skip
      directives f n true
    | .tagPrefix h _ =>
      if (← get).handles.contains h then
        throw ⟨"found duplicate %TAG directive", t.start, none⟩
      skip
      modify fun d => { d with handles := h :: d.handles }
      directives f n versioned
    | _ => pure ()

/-- The kinds of tokens that end the content of a document. -/
def contentEnds (k : TokenKind) : Bool :=
  match k with
  | .version .. => true
  | .tagPrefix .. => true
  | .documentStart => true
  | .documentEnd => true
  | .streamEnd => true
  | _ => false

/-- Reads the first document, if there is one, with the marker that ends it. -/
def document (f : Option Fault) (n : Nat) : Reading Unit := do
  let t ← peek f
  if t.kind = .streamEnd then emit t.start .void
  else
    if contentEnds t.kind && t.kind ≠ .documentEnd then
      directives f n false
      modify fun d => { d with handles := "!" :: "!!" :: d.handles }
      let t ← peek f
      if t.kind ≠ .documentStart then
        throw ⟨"did not find expected <document start>", t.start, none⟩
      skip
      let t ← peek f
      if contentEnds t.kind then emitEmpty t.start else node f n true false
    else
      modify fun d => { d with handles := ["!", "!!"] }
      node f n true false
    let t ← peek f
    if t.kind = .documentEnd then skip

end Reading

/-- The first document of a text. -/
structure Document where
  events : List Located
  /-- what to say to a reader who goes past the events -/
  fault : Option String
  /-- whether anything stands behind the document -/
  more : Bool
  deriving Repr

namespace Document

/-- Whether more than the end follows a document, markers aside. -/
def continues (ts : List Token) : Bool :=
  match ts.dropWhile fun t => t.kind = .documentEnd with
  | t :: _ => t.kind ≠ .streamEnd
  | [] => true

/-- The first document of a text. -/
def ofText (text : String) : Document :=
  let (ts, fault) := tokens text
  let (result, d) := (Reading.document fault (4 * ts.length + 8)).run.run ⟨ts, [], [], []⟩
  let events := d.events.reverse
  match result with
  | .ok () => ⟨events, none, events.all (fun e => e.event ≠ .void) && continues d.tokens⟩
  | .error f => ⟨events, some f.message, false⟩

end Document

end Retarget.Yaml
