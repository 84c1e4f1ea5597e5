import Retarget.Json.Typed
import Retarget.Yaml.Event
import Retarget.Yaml.Kind

/-!
# Typed YAML documents

Readers for documents whose shape is known, over the events of a document.  A
complaint names the path to the value and its place.  An alias is read at the
events that it stands for.  An empty value does for a collection.
-/

namespace Retarget.Yaml

/-- The rest of the events of a document. -/
abbrev Rest := List Located

/-- The path to a value. -/
structure Trail where
  text : String
  deriving DecidableEq, Repr

namespace Trail

/-- The path to the whole document. -/
def root : Trail :=
  ⟨"."⟩

/-- The path to a member; a key that is no scalar has no name. -/
def member (p : Trail) (key : Option String) : Trail :=
  let before := if p = root then "" else p.text ++ "."
  match key with
  | some k => ⟨before ++ k⟩
  | none => ⟨before ++ "?"⟩

/-- The path to an item. -/
def item (p : Trail) (i : Nat) : Trail :=
  ⟨p.text ++ "[" ++ toString i ++ "]"⟩

/-- A complaint about the value at the end of a path. -/
def complain {α : Type} (p : Trail) (m : Mark) (message : String) : Except String α :=
  .error ((if p = root then "" else p.text ++ ": ") ++ message ++ m.text)

end Trail

/-- A reader of values. -/
abbrev ValueReader (α : Type) := Document → Trail → Rest → Except String (α × Rest)

namespace Document

/-- The next event. -/
def next (d : Document) : Rest → Except String (Located × Rest)
  | e :: rest => .ok (e, rest)
  | [] => .error (d.fault.getD endOfText)
where
  /-- What to say at the end of a text. -/
  endOfText : String := "EOF while parsing a value"

end Document

/-- Reads a value, or what it stands for if it is an alias. -/
def through {α : Type} (reader : ValueReader α) : ValueReader α := fun d p rest =>
  match rest with
  | ⟨_, .alias k⟩ :: behind => (reader d p (d.events.drop k)).map fun x => (x.1, behind)
  | _ => reader d p rest

/-- Complains about the kind of a value. -/
def unexpected {α : Type} (p : Trail) (e : Located) (wanted : String) : Except String α :=
  let say (what : String) : Except String α :=
    p.complain e.mark ("invalid type: " ++ what ++ ", expected " ++ wanted)
  match e.event with
  | .scalar s plain => say (Kind.describe s plain)
  | .sequence => say "sequence"
  | .mapping => say "map"
  | _ => p.complain e.mark Document.next.endOfText

/-- Reads a string; `wanted` names it in messages. -/
def readString (wanted : String) : ValueReader String := through fun d p rest => do
  let (e, rest) ← d.next rest
  match e.event with
  | .scalar s _ => return (s, rest)
  | _ => unexpected p e wanted

/-- Reads a value or a null. -/
def readOptional {α : Type} (reader : ValueReader α) : ValueReader (Option α) :=
  through fun d p rest => do
    let (e, behind) ← d.next rest
    match e.event with
    | .scalar s true =>
      if s = "" || Kind.isNull s then return (none, behind)
      else (reader d p rest).map fun x => (some x.1, x.2)
    | .void => return (none, behind)
    | _ => (reader d p rest).map fun x => (some x.1, x.2)

/-- Whether an event will do for an empty collection. -/
def isHollow (e : Event) : Bool :=
  e = .void || e = .scalar "" true

/-- Reads items up to the end of a sequence; `n` bounds their number. -/
def readItems {α : Type} (reader : ValueReader α) (d : Document) (p : Trail) :
    Nat → Nat → Rest → Except String (List α × Rest)
  | 0, _, rest => .ok ([], rest)
  | n + 1, i, rest => do
    let (e, behind) ← d.next rest
    if e.event = .sequenceEnd then return ([], behind)
    let (x, rest) ← reader d (p.item i) rest
    let (xs, rest) ← readItems reader d p n (i + 1) rest
    return (x :: xs, rest)

/-- Reads a list; `wanted` names it in messages. -/
def readListOf {α : Type} (wanted : String) (reader : ValueReader α) : ValueReader (List α) :=
  through fun d p rest => do
    let (e, behind) ← d.next rest
    if isHollow e.event then return ([], behind)
    if e.event ≠ .sequence then unexpected p e wanted
    readItems reader d p (behind.length + 1) 0 behind

/-- Skips a value, given how many collections are open. -/
def skipValue (d : Document) : Nat → Rest → Except String Rest
  | _, [] => (d.next []).map Prod.snd
  | depth, e :: rest =>
    let depth := match e.event with
      | .sequence => depth + 1
      | .mapping => depth + 1
      | .sequenceEnd => depth - 1
      | .mappingEnd => depth - 1
      | _ => depth
    if depth = 0 then .ok rest else skipValue d depth rest

/-- The name of the key that comes next, if it is a scalar. -/
def keyName : Rest → Option String
  | ⟨_, .scalar s _⟩ :: _ => some s
  | _ => none

/-- Reads members up to the end of a mapping.  A visitor takes each key and
reads on from the value; `n` bounds the members. -/
def readMembers {σ : Type} (wanted : String) (visit : σ → String → ValueReader σ)
    (d : Document) (p : Trail) : Nat → σ → Rest → Except String (σ × Rest)
  | 0, s, rest => .ok (s, rest)
  | n + 1, s, rest => do
    let (e, behind) ← d.next rest
    if e.event = .mappingEnd then return (s, behind)
    let (k, behind) ← readString wanted d p rest
    let (s, behind) ← visit s k d (p.member (keyName rest)) behind
    readMembers wanted visit d p n s behind

/-- Reads a mapping of strings. -/
def readStringMap : ValueReader (OrderedMap String String) := through fun d p rest => do
  let (e, behind) ← d.next rest
  if isHollow e.event then return ([], behind)
  if e.event ≠ .mapping then unexpected p e "a map"
  readMembers "a string" (fun m k d p rest => do
    let (s, rest) ← readString "a string" d p rest
    return (OrderedMap.insert m k s, rest)) d p (behind.length + 1) [] behind

/-- Reads a record. -/
def readRecord {α δ φ : Type} (shape : Json.RecordShape α δ φ)
    (value : δ → φ → ValueReader δ) : ValueReader α := through fun d p rest => do
  let (e, behind) ← d.next rest
  let close (x : δ) (rest : Rest) : Except String (α × Rest) :=
    match shape.finish x with
    | .ok a => .ok (a, rest)
    | .error f => p.complain e.mark ("missing field \x60" ++ shape.key f ++ "\x60")
  if isHollow e.event then close shape.empty behind
  else if e.event ≠ .mapping then unexpected p e shape.wanted
  else
    let (x, rest) ← readMembers "field identifier" (fun x k d' p' rest =>
      match shape.fields.find? fun f => shape.key f = k with
      | none => (skipValue d' 0 rest).map fun r => (x, r)
      | some f =>
        if shape.has x f then p.complain e.mark ("duplicate field \x60" ++ k ++ "\x60")
        else value x f d' p' rest) d p (behind.length + 1) shape.empty behind
    close x rest

/-- What to say about a text with several documents. -/
def severalDocuments : String :=
  "deserializing from YAML containing more than one document is not supported"

/-- Reads a whole text with a reader. -/
def readText {α : Type} (reader : ValueReader α) (text : String) : Except String α := do
  let d := Document.ofText text
  let (a, _) ← reader d .root d.events
  match d.fault with
  | some f => .error f
  | none => if d.more then .error severalDocuments else .ok a

end Retarget.Yaml
