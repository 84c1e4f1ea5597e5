import Retarget.Proofs.Path.Canonical
import Retarget.Proofs.Relocation.Extracted
import Retarget.Proofs.Relocation.Once
import Retarget.Proofs.Relocation.Substituting

/-!
# Relocation replaces path literals and nothing else

A `Spot` is a string of a fragment in parentheses that relocation may spell anew: the value
of a listed key, alone or in an array, that can be a path of the workspace.  `Replaces` says
what relocation has to do with them.  It spells every spot with another place from the new
host anew, all at once and each exactly once, it lists what it replaced and what it could not
move, and it leaves every other byte and the rest of the fragment alone.
-/

namespace Retarget.Relocation

open Syntax
open Place (bytes)

/-- A string with its key, its quote and what it quotes. -/
structure Spot where
  key : Node
  value : Node
  quote : Char
  literal : List Char

namespace Spot

/-- A spot that can be spelled anew. -/
structure Eligible (keys : List String) (cs : List Char) (tree : Node) (s : Spot) : Prop where
  valued : Valued tree s.key s.value
  literal : PathLiteral keys cs s.key s.value s.quote s.literal

/-- What a spot quotes. -/
def text (s : Spot) : String :=
  String.ofList s.literal

/-- What a spot quotes for another host, if that is something else. -/
def moved? (old new : Path) (s : Spot) : Option String :=
  (Path.rebase s.text old new).filter (· ≠ s.text)

/-- The edit of a spot that is spelled anew. -/
def edit? (old new : Path) (s : Spot) : Option Edit :=
  (s.moved? old new).map (respell s.value s.quote)

/-- The report on a spot that is spelled anew. -/
def replaced? (old new : Path) (s : Spot) : Option (String × String) :=
  (s.moved? old new).map fun moved => (s.text, moved)

/-- The report on a spot that the new host does not reach. -/
def unresolved? (old new : Path) (s : Spot) : Option String :=
  if (Path.rebase s.text old new).isNone then some s.text else none

end Spot

/-- The edits of spots in the order in which they are made, the last one in the text first. -/
def editsOf (new : Path) (spots : List Spot) : List Edit :=
  (spots.filterMap (Spot.edit? ⟨""⟩ new)).mergeSort fun a b => b.start ≤ a.start

/-- What relocation from the workspace to a host makes of a fragment, given the tree of the
fragment in parentheses. -/
structure Replaces (keys : List String) (new : Path) (f : Fragment) (tree : Node)
    (spots : List Spot) (n : Normalized) : Prop where
  /-- the spots are all the strings that can be spelled anew -/
  complete : ∀ s, s ∈ spots ↔ s.Eligible keys ('(' :: f.text.toList ++ [')']) tree
  /-- no two of them share a byte -/
  apart : spots.Pairwise fun s t => s.value.stop ≤ t.value.start ∨ t.value.stop ≤ s.value.start
  /-- each is a stretch of the fragment, its quotes included -/
  inside : ∀ s ∈ spots, ∃ before after,
    f.text.toList = before ++ (s.quote :: s.literal ++ [s.quote]) ++ after ∧
      s.value.start = bytes before + 1 ∧
      s.value.stop = bytes before + 1 + bytes (s.quote :: s.literal ++ [s.quote])
  /-- those that move are replaced at once, and everything else stays -/
  text : n.fragment.text.toList =
    substitute (spots.filterMap (Spot.edit? ⟨""⟩ new)) 0 f.text.toList
  replaced : n.replaced = spots.filterMap (Spot.replaced? ⟨""⟩ new)
  unresolved : n.unresolved = spots.filterMap (Spot.unresolved? ⟨""⟩ new)
  /-- a new literal has no characters of its own but dots and slashes -/
  characters : ∀ s ∈ spots, ∀ moved, s.moved? ⟨""⟩ new = some moved →
    ∀ c ∈ moved.toList, c ∈ s.literal ∨ c = '.' ∨ c = '/'
  kept : n.fragment.callee = f.callee ∧ n.fragment.source = f.source ∧
    n.fragment.start = f.start ∧ n.fragment.stop = f.stop ∧ n.fragment.line = f.line
  /-- no string that is a value starts with the parenthesis -/
  offsets : ∀ k v, Valued tree k v → 1 ≤ v.start ∧ v.start ≤ v.stop
  /-- each edit finds its stretch in the text that those before it left -/
  fits : AllFit f.text.toList (editsOf new spots)

variable {keys : List String} {old new : Path} {cs text : List Char} {tree k v : Node}
  {f : Fragment} {m : Match} {p : Progress} {s : Spot} {spots : List Spot}

/-! ## The spots of a tree -/

/-- The spot that a match finds. -/
def spotOf (keys : List String) (cs : List Char) (m : Match) : Option Spot :=
  match m.capture? "key", m.capture? "value" with
  | some key, some value =>
    if keys.contains (String.ofList (unquote (key.textIn cs).toList)) then
      match splitLiteral (value.textIn cs).toList with
      | some (q, literal) => if isRelocatable literal then some ⟨key, value, q, literal⟩ else none
      | none => none
    else none
  | _, _ => none

theorem spotOf_eq_some_iff (hm : m.captures = captureBoth (k, v)) :
    spotOf keys cs m = some s ↔
      s.key = k ∧ s.value = v ∧ PathLiteral keys cs k v s.quote s.literal := by
  unfold spotOf
  rw [(captured hm).1, (captured hm).2]
  dsimp only
  constructor
  · intro h
    split at h
    · next hlisted =>
      split at h
      · next q literal hquoted =>
        split at h
        · next hrelocatable =>
          obtain rfl := Option.some.inj h
          exact ⟨rfl, rfl, hlisted, hquoted, hrelocatable⟩
        · cases h
      · cases h
    · cases h
  · rintro ⟨rfl, rfl, hliteral⟩
    rw [if_pos hliteral.listed, hliteral.quoted]
    dsimp only
    rw [if_pos hliteral.relocatable]

/-- All spots of a tree, in the order in which relocation meets them. -/
def spotsIn (keys : List String) (cs : List Char) (tree : Node) : List Spot :=
  (Query.runAll [⟨[stringPair]⟩, ⟨[arrayPair]⟩] [] cs tree).filterMap (spotOf keys cs)

theorem mem_spotsIn : s ∈ spotsIn keys cs tree ↔ s.Eligible keys cs tree := by
  rw [spotsIn, List.mem_filterMap]
  constructor
  · rintro ⟨m, hm, hs⟩
    obtain ⟨k, v, hv, hcaptures⟩ := mem_found.mp ⟨m, hm, rfl⟩
    obtain ⟨rfl, rfl, hliteral⟩ := (spotOf_eq_some_iff hcaptures).mp hs
    exact ⟨hv, hliteral⟩
  · rintro ⟨hv, hliteral⟩
    obtain ⟨m, hm, hcaptures⟩ := mem_found.mpr ⟨s.key, s.value, hv, rfl⟩
    exact ⟨m, hm, (spotOf_eq_some_iff hcaptures).mpr ⟨rfl, rfl, hliteral⟩⟩

/-- A spot is a stretch of the text in the parentheses. -/
theorem Spot.Eligible.stretch {text : List Char} (htree : tree.Placed ('(' :: text ++ [')']))
    (h : s.Eligible keys ('(' :: text ++ [')']) tree) :
    ∃ before after, text = before ++ (s.quote :: s.literal ++ [s.quote]) ++ after ∧
      s.value.start = bytes before + 1 ∧
      s.value.stop = bytes before + 1 + bytes (s.quote :: s.literal ++ [s.quote]) :=
  exists_stretch (htree.below h.valued.string.1).1 h.literal.quoted

theorem Spot.Eligible.start_lt_stop (htree : tree.Placed cs) (h : s.Eligible keys cs tree) :
    s.value.start < s.value.stop :=
  Relocation.start_lt_stop (htree.below h.valued.string.1).1 h.literal.quoted

/-- No two spots share a byte. -/
theorem pairwise_spotsIn (htree : tree.Placed cs)
    (hkeyed : ∀ n ∈ tree.preorder, n.is .pair → Keyed n.children) :
    (spotsIn keys cs tree).Pairwise fun s t =>
      s.value.stop ≤ t.value.start ∨ t.value.stop ≤ s.value.start := by
  rw [spotsIn, List.pairwise_filterMap]
  refine (pairwise_runAll htree hkeyed).imp_of_mem ?_
  intro m m' hm hm' hapart s hs t ht
  have hsin : s.Eligible keys cs tree := mem_spotsIn.mp (List.mem_filterMap.mpr ⟨m, hm, hs⟩)
  have htin : t.Eligible keys cs tree := mem_spotsIn.mp (List.mem_filterMap.mpr ⟨m', hm', ht⟩)
  obtain ⟨k, v, -, hcaptures⟩ := mem_found.mp ⟨m, hm, rfl⟩
  obtain ⟨k', v', -, hcaptures'⟩ := mem_found.mp ⟨m', hm', rfl⟩
  obtain ⟨-, rfl, -⟩ := (spotOf_eq_some_iff hcaptures).mp hs
  obtain ⟨-, rfl, -⟩ := (spotOf_eq_some_iff hcaptures').mp ht
  have hne := hapart k s.value k' t.value hcaptures hcaptures' (hsin.start_lt_stop htree)
    (htin.start_lt_stop htree)
  rcases htree.strings_apart hsin.valued.string.1 htin.valued.string.1 hsin.valued.string.2
    htin.valued.string.2 with hsame | hdisjoint
  · exact absurd hsame.1 hne
  · exact hdisjoint

/-! ## What relocation notes about them -/

/-- What was found so far with what there is to say about one spot more. -/
def Progress.note (old new : Path) (p : Progress) (s : Spot) : Progress :=
  ⟨p.edits ++ (s.edit? old new).toList, p.replaced ++ (s.replaced? old new).toList,
    p.unresolved ++ (s.unresolved? old new).toList⟩

theorem consider_of_spot (hm : m.captures = captureBoth (k, v)) (hs : spotOf keys cs m = some s)
    (hfresh : ∀ e ∈ p.edits, e.start ≠ s.value.start - 1) :
    consider keys old new cs p m = p.note old new s := by
  obtain ⟨rfl, rfl, hliteral⟩ := (spotOf_eq_some_iff hm).mp hs
  rw [consider_of_literal hm hliteral hfresh]
  unfold Progress.note Spot.edit? Spot.replaced? Spot.unresolved? Spot.moved? Spot.text
  cases Path.rebase (String.ofList s.literal) old new with
  | none => simp
  | some moved =>
    by_cases hsame : moved = String.ofList s.literal
    · simp [Option.filter, hsame]
    · simp [Option.filter, hsame]

theorem consider_of_no_spot (hm : m.captures = captureBoth (k, v))
    (hs : spotOf keys cs m = none) : consider keys old new cs p m = p := by
  refine consider_of_not_literal hm fun q literal hliteral => ?_
  have hspot : spotOf keys cs m = some ⟨k, v, q, literal⟩ :=
    (spotOf_eq_some_iff hm).mpr ⟨rfl, rfl, hliteral⟩
  rw [hs] at hspot
  cases hspot

/-- Relocation notes spot after spot, if no two of them start at the same byte. -/
theorem foldl_consider {ms : List Match} (hms : ∀ m ∈ ms, ∃ k v, m.captures = captureBoth (k, v))
    (hfresh : ∀ s ∈ ms.filterMap (spotOf keys cs), ∀ e ∈ p.edits, e.start ≠ s.value.start - 1)
    (hdistinct : (ms.filterMap (spotOf keys cs)).Pairwise fun s t =>
      s.value.start - 1 ≠ t.value.start - 1) :
    ms.foldl (consider keys old new cs) p =
      (ms.filterMap (spotOf keys cs)).foldl (Progress.note old new) p := by
  induction ms generalizing p with
  | nil => rfl
  | cons m ms ih =>
    obtain ⟨k, v, hm⟩ := hms m List.mem_cons_self
    have hrest : ∀ m ∈ ms, ∃ k v, m.captures = captureBoth (k, v) :=
      fun m hm => hms m (List.mem_cons_of_mem _ hm)
    rw [List.foldl_cons]
    cases hs : spotOf keys cs m with
    | none =>
      rw [List.filterMap_cons_none hs] at hfresh hdistinct ⊢
      rw [consider_of_no_spot hm hs]
      exact ih hrest hfresh hdistinct
    | some s =>
      rw [List.filterMap_cons_some hs] at hfresh hdistinct ⊢
      obtain ⟨hlater, hdistinct⟩ := List.pairwise_cons.mp hdistinct
      rw [consider_of_spot hm hs (hfresh s List.mem_cons_self), List.foldl_cons]
      refine ih hrest ?_ hdistinct
      intro t ht e he
      rcases List.mem_append.mp he with he | he
      · exact hfresh t (List.mem_cons_of_mem _ ht) e he
      · -- the edit of this spot starts where the spot does
        obtain ⟨moved, -, rfl⟩ := Option.map_eq_some_iff.mp (Option.mem_toList.mp he)
        exact hlater t ht

theorem foldl_note (spots : List Spot) (p : Progress) :
    spots.foldl (Progress.note old new) p =
      ⟨p.edits ++ spots.filterMap (Spot.edit? old new),
        p.replaced ++ spots.filterMap (Spot.replaced? old new),
        p.unresolved ++ spots.filterMap (Spot.unresolved? old new)⟩ := by
  have hcons {β : Type} (g : Spot → Option β) (s : Spot) (spots : List Spot) :
      (s :: spots).filterMap g = (g s).toList ++ spots.filterMap g := by
    rw [List.filterMap_cons]
    cases g s with
    | none => rfl
    | some b => rfl
  induction spots generalizing p with
  | nil => simp
  | cons s spots ih =>
    rw [List.foldl_cons, ih, hcons, hcons, hcons]
    simp only [Progress.note, List.append_assoc]

/-- What relocation finds in the tree of a text in parentheses. -/
theorem found_eq {text : List Char} (htree : tree.Placed ('(' :: text ++ [')']))
    (hkeyed : ∀ n ∈ tree.preorder, n.is .pair → Keyed n.children) :
    found keys old new ('(' :: text ++ [')']) tree =
      ⟨(spotsIn keys ('(' :: text ++ [')']) tree).filterMap (Spot.edit? old new),
        (spotsIn keys ('(' :: text ++ [')']) tree).filterMap (Spot.replaced? old new),
        (spotsIn keys ('(' :: text ++ [')']) tree).filterMap (Spot.unresolved? old new)⟩ := by
  have hcaptures : ∀ m ∈ Query.runAll [⟨[stringPair]⟩, ⟨[arrayPair]⟩] []
      ('(' :: text ++ [')']) tree, ∃ k v, m.captures = captureBoth (k, v) := by
    intro m hm
    obtain ⟨k, v, -, hcaptures⟩ := mem_found.mp ⟨m, hm, rfl⟩
    exact ⟨k, v, hcaptures⟩
  have hdistinct : (spotsIn keys ('(' :: text ++ [')']) tree).Pairwise fun s t =>
      s.value.start - 1 ≠ t.value.start - 1 := by
    refine (pairwise_spotsIn htree hkeyed).imp_of_mem ?_
    intro s t hs ht hapart
    have hsin := mem_spotsIn.mp hs
    have htin := mem_spotsIn.mp ht
    have hslt := hsin.start_lt_stop htree
    have htlt := htin.start_lt_stop htree
    obtain ⟨_, _, -, hsstart, -⟩ := hsin.stretch htree
    obtain ⟨_, _, -, htstart, -⟩ := htin.stretch htree
    omega
  rw [found, foldl_consider hcaptures (by simp) hdistinct, foldl_note]
  simp [spotsIn]

/-! ## The fragment -/

/-- A string that is a value stands behind the first byte of its pair. -/
theorem offsets_of_keyed (htree : tree.Placed cs)
    (hkeyed : ∀ n ∈ tree.preorder, n.is .pair → Keyed n.children) (hv : Valued tree k v) :
    1 ≤ v.start ∧ v.start ≤ v.stop := by
  obtain ⟨pair, hpair, hmem⟩ := List.mem_flatMap.mp (mem_values.mpr hv)
  obtain ⟨hlt, -, -, hplaced⟩ := keyed_value (htree.below hpair).1
    (hkeyed pair hpair (mem_keyedBy.mp hmem).1) hmem
  exact ⟨by omega, hplaced.start_le_stop⟩

/-- The edits of spots fit the text in the parentheses, and each stands before those that are
made before it. -/
theorem descending_editsOf {text : List Char} (keys : List String) (new : Path)
    (htree : tree.Placed ('(' :: text ++ [')']))
    (hkeyed : ∀ n ∈ tree.preorder, n.is .pair → Keyed n.children) :
    (∀ e ∈ editsOf new (spotsIn keys ('(' :: text ++ [')']) tree),
      Edits text e ∧ e.start < e.stop) ∧
    Descending (editsOf new (spotsIn keys ('(' :: text ++ [')']) tree)) := by
  have hconsidered := considered_found keys ⟨""⟩ new ('(' :: text ++ [')']) tree
  have hedits : (found keys ⟨""⟩ new ('(' :: text ++ [')']) tree).edits =
      (spotsIn keys ('(' :: text ++ [')']) tree).filterMap (Spot.edit? ⟨""⟩ new) := by
    rw [found_eq htree hkeyed]
  unfold editsOf
  rw [← hedits]
  constructor
  · intro e he
    obtain ⟨hfits, hlt, -⟩ := hconsidered.edit_spec htree (List.mem_mergeSort.mp he)
    exact ⟨hfits, hlt⟩
  · exact hconsidered.descending htree

/-- Without a text or without keys there are no spots. -/
theorem spotsIn_eq_nil (htree : tree.Placed ('(' :: f.text.toList ++ [')']))
    (h : (f.isEmpty || keys.isEmpty) = true) :
    spotsIn keys ('(' :: f.text.toList ++ [')']) tree = [] := by
  refine List.eq_nil_iff_forall_not_mem.mpr fun s hs => ?_
  have hs := mem_spotsIn.mp hs
  rcases Bool.or_eq_true_iff.mp h with hempty | hempty
  · obtain ⟨before, after, htext, -⟩ := hs.stretch htree
    rw [of_decide_eq_true hempty] at htext
    simp at htext
  · have hlisted := hs.literal.listed
    rw [List.isEmpty_iff.mp hempty] at hlisted
    cases hlisted

/-- What relocation makes of a fragment with a tree. -/
theorem normalize_eq
    (htree : Dialect.typescript.parseChars ('(' :: f.text.toList ++ [')']) = .ok tree) :
    normalize keys f old new =
      let spots := spotsIn keys ('(' :: f.text.toList ++ [')']) tree
      ⟨f.withText (applyEdits f.text (spots.filterMap (Spot.edit? old new))),
        spots.filterMap (Spot.replaced? old new), spots.filterMap (Spot.unresolved? old new)⟩ := by
  have hplaced := placed_of_parseChars htree
  cases hnothing : f.isEmpty || keys.isEmpty with
  | true =>
    rw [spotsIn_eq_nil hplaced hnothing]
    have htext : f.withText (applyEdits f.text []) = f := by
      simp [Fragment.withText, applyEdits]
    simp [normalize, hnothing, htext]
  | false =>
    obtain ⟨hf, hkeys⟩ := Bool.or_eq_false_iff.mp hnothing
    rw [normalize_of_parse htree hf hkeys, found_eq hplaced (keyed_of_parseChars htree)]

/-- A fragment with an object in an array, and with a path that leaves the workspace. -/
def nestedFragment : Fragment :=
  ⟨"withNx", "\x7b assets: ['ä/a.txt', \x7b input: \"b\" \x7d], main: '../x' \x7d", ⟨"w.js"⟩,
    7, 61, 1⟩

end Retarget.Relocation
