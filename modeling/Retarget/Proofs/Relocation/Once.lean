import Mathlib.Data.List.Perm.Basic
import Retarget.Proofs.Relocation.Pairs

/-!
# Every value is found once

Relocation takes the matches of two queries into account, one by one.  Up to their order the
matches are the strings that `values` lists pair by pair, and that list names no stretch of the
text twice: a pair has one key, the strings that it holds stand one behind the other, and a
pair inside a value stands inside an array or an object, never inside a string.
-/

namespace Retarget.Relocation

open Syntax
open Node (Row Placed Apart)

variable {cs : List Char} {tree n k v w h b : Node} {ns ms : List Node} {lo hi : Nat}

/-! ## What the queries find, as a list -/

/-- Whether a node is a key that the queries look for. -/
def isKey (n : Node) : Bool :=
  n.field = some .key && (n.is .propertyIdentifier || n.is .string)

/-- The string that a value is. -/
def ownString (h : Node) : List Node :=
  if h.field = some .value && h.is .string then [h] else []

/-- The strings of a value that is an array. -/
def elementStrings (h : Node) : List Node :=
  if h.field = some .value && h.is .array then h.children.filter (·.is .string) else []

/-- The keys of a pair with strings of what stands behind them. -/
def keyedBy (strings : Node → List Node) (n : Node) : List (Node × Node) :=
  if n.is .pair then
    (Pattern.suffixes n.children).flatMap fun x =>
      if isKey x.1 then (x.2.flatMap strings).map (x.1, ·) else []
  else []

/-- The strings that a value is or has. -/
def heldStrings (h : Node) : List Node :=
  ownString h ++ elementStrings h

/-- All strings that are values, with their keys. -/
def values (tree : Node) : List (Node × Node) :=
  tree.preorder.flatMap (keyedBy heldStrings)

/-- How the queries capture a key and a value. -/
def captureBoth (x : Node × Node) : Captures :=
  [("key", x.1), ("value", x.2)]

theorem matchNode_key (k : Node) :
    Pattern.matchNode cs keyPattern k = if isKey k then [[("key", k)]] else [] := by
  by_cases hfield : k.field = some .key
  · by_cases hname : k.kind = .named .propertyIdentifier
    · simp [keyPattern, Pattern.matchNode, Pattern.matchAny, Pattern.matchChildren, isKey, hfield,
        Node.is, hname]
    · by_cases hstring : k.kind = .named .string
      · simp [keyPattern, Pattern.matchNode, Pattern.matchAny, Pattern.matchChildren, isKey,
          hfield, Node.is, hstring]
      · simp [keyPattern, Pattern.matchNode, Pattern.matchAny, isKey, hfield, Node.is, hname,
          hstring]
  · simp [keyPattern, Pattern.matchNode, isKey, hfield]

/-- One pattern matches each node of a row on its own. -/
theorem matchChildren_singleton (p : Pattern) (ns : List Node) :
    Pattern.matchChildren cs [p] ns = ns.flatMap (Pattern.matchNode cs p) := by
  induction ns with
  | nil => simp [Pattern.matchChildren, Pattern.suffixes]
  | cons n ns ih =>
    rw [Pattern.matchChildren] at ih
    rw [Pattern.matchChildren, Pattern.suffixes, List.flatMap_cons, List.flatMap_cons, ih]
    simp [Pattern.matchChildren]

theorem matchNode_value (h : Node) :
    Pattern.matchNode cs valuePattern h = (ownString h).map fun v => [("value", v)] := by
  by_cases hfield : h.field = some .value
  · by_cases hstring : h.is .string = true
    · simp [valuePattern, Pattern.matchNode, Pattern.matchChildren, ownString, hfield, hstring]
    · simp [valuePattern, Pattern.matchNode, ownString, hfield, hstring]
  · simp [valuePattern, Pattern.matchNode, ownString, hfield]

theorem matchNode_element (h : Node) :
    Pattern.matchNode cs elementPattern h = (elementStrings h).map fun v => [("value", v)] := by
  have hstrings (ns : List Node) :
      ns.flatMap (Pattern.matchNode cs (.captured "value" (.named (some .string) []))) =
        (ns.filter (·.is .string)).map fun v => [("value", v)] := by
    induction ns with
    | nil => rfl
    | cons n ns ih =>
      rw [List.flatMap_cons, ih]
      by_cases hstring : n.is .string = true
      · simp [Pattern.matchNode, Pattern.matchChildren, hstring]
      · simp [Pattern.matchNode, hstring]
  by_cases hfield : h.field = some .value
  · by_cases harray : h.is .array = true
    · simp only [elementPattern, Pattern.matchNode, matchChildren_singleton, hfield, if_true,
        harray, elementStrings, decide_true, Bool.and_self]
      exact hstrings h.children
    · simp [elementPattern, Pattern.matchNode, elementStrings, hfield, harray]
  · simp [elementPattern, Pattern.matchNode, elementStrings, hfield]

/-- The matches of a query for pairs, given what its second part matches. -/
theorem matchNode_pair {inner : Pattern} {strings : Node → List Node}
    (hinner : ∀ h, Pattern.matchNode cs inner h = (strings h).map fun v => [("value", v)])
    (n : Node) : Pattern.matchNode cs (.named (some .pair) [keyPattern, inner]) n =
      (keyedBy strings n).map captureBoth := by
  by_cases hpair : n.is .pair = true
  · simp only [Pattern.matchNode, hpair, if_true, keyedBy, List.map_flatMap]
    rw [Pattern.matchChildren]
    refine List.flatMap_congr fun x _ => ?_
    obtain ⟨k, rest⟩ := x
    dsimp only
    rw [matchNode_key]
    by_cases hkey : isKey k = true
    · simp [hkey, matchChildren_singleton, hinner, List.map_flatMap, captureBoth,
        Function.comp_def]
    · simp [hkey]
  · simp [Pattern.matchNode, keyedBy, hpair]

theorem keyedBy_append_perm (f g : Node → List Node) (n : Node) :
    (keyedBy f n ++ keyedBy g n).Perm (keyedBy (fun h => f h ++ g h) n) := by
  unfold keyedBy
  split
  · refine (List.flatMap_append_perm _ _ _).trans (.flatMap (.refl _) fun x _ => ?_)
    split
    · rw [← List.map_append]
      exact (List.flatMap_append_perm _ _ _).map _
    · exact .refl _
  · exact .refl _

theorem captures_run (p : Pattern) (tree : Node) :
    (Query.run ⟨[p]⟩ cs tree).map Match.captures = tree.preorder.flatMap (p.matchNode cs) := by
  simp [Query.run, List.map_flatMap, Function.comp_def]

/-- Up to their order, the matches of relocation are the strings that are values. -/
theorem captures_runAll_perm (cs : List Char) (tree : Node) :
    ((Query.runAll [⟨[stringPair]⟩, ⟨[arrayPair]⟩] [] cs tree).map Match.captures).Perm
      ((values tree).map captureBoth) := by
  have hstring (n : Node) : stringPair.matchNode cs n = (keyedBy ownString n).map captureBoth :=
    matchNode_pair matchNode_value n
  have harray (n : Node) :
      arrayPair.matchNode cs n = (keyedBy elementStrings n).map captureBoth :=
    matchNode_pair matchNode_element n
  have hboth : ((Query.run ⟨[stringPair]⟩ cs tree).map Match.captures ++
      (Query.run ⟨[arrayPair]⟩ cs tree).map Match.captures).Perm
        ((values tree).map captureBoth) := by
    rw [captures_run, captures_run, values, List.map_flatMap]
    refine (List.flatMap_append_perm _ _ _).trans (.flatMap (.refl _) fun n _ => ?_)
    rw [hstring, harray, ← List.map_append]
    exact (keyedBy_append_perm _ _ n).map _
  unfold Query.runAll
  refine ((List.mergeSort_perm _ _).map _).trans ?_
  simpa [Query.restrict] using hboth

/-! ## Where the strings stand -/

theorem mem_ownString : v ∈ ownString h ↔ h.field = some .value ∧ h.is .string ∧ v = h := by
  simp [ownString, and_assoc]

theorem mem_elementStrings :
    v ∈ elementStrings h ↔
      h.field = some .value ∧ h.is .array ∧ v ∈ h.children ∧ v.is .string := by
  simp [elementStrings, and_assoc]

theorem mem_heldStrings :
    v ∈ heldStrings h ↔ h.field = some .value ∧ v.is .string ∧
      (v = h ∨ h.is .array ∧ v ∈ h.children) := by
  rw [heldStrings, List.mem_append, mem_ownString, mem_elementStrings]
  constructor
  · rintro (⟨hfield, hstring, rfl⟩ | ⟨hfield, harray, hv, hstring⟩)
    · exact ⟨hfield, hstring, .inl rfl⟩
    · exact ⟨hfield, hstring, .inr ⟨harray, hv⟩⟩
  · rintro ⟨hfield, hstring, rfl | ⟨harray, hv⟩⟩
    · exact .inl ⟨hfield, hstring, rfl⟩
    · exact .inr ⟨hfield, harray, hv, hstring⟩

theorem mem_keyedBy {strings : Node → List Node} :
    (k, v) ∈ keyedBy strings n ↔ n.is .pair ∧ ∃ before rest, n.children = before ++ k :: rest ∧
      isKey k ∧ ∃ h ∈ rest, v ∈ strings h := by
  unfold keyedBy
  split
  · next hpair =>
    simp only [hpair, true_and, List.mem_flatMap]
    constructor
    · rintro ⟨⟨key, rest⟩, hsuffix, hmem⟩
      split at hmem
      · next hkey =>
        obtain ⟨before, hchildren⟩ := Pattern.mem_suffixes.mp hsuffix
        obtain ⟨w, hw, heq⟩ := List.mem_map.mp hmem
        obtain ⟨rfl, rfl⟩ := Prod.mk.inj heq
        exact ⟨before, rest, hchildren, hkey, List.mem_flatMap.mp hw⟩
      · cases hmem
    · rintro ⟨before, rest, hchildren, hkey, hv⟩
      refine ⟨(k, rest), Pattern.mem_suffixes.mpr ⟨before, hchildren⟩, ?_⟩
      rw [if_pos hkey]
      exact List.mem_map.mpr ⟨v, List.mem_flatMap.mpr hv, rfl⟩
  · next hpair =>
    constructor
    · intro hmem
      cases hmem
    · rintro ⟨his, -⟩
      exact absurd his hpair

/-- The list has all strings that are values, and no others. -/
theorem mem_values : (k, v) ∈ values tree ↔ Valued tree k v := by
  rw [values, List.mem_flatMap]
  constructor
  · rintro ⟨pair, hpair, hmem⟩
    obtain ⟨his, before, rest, hchildren, hkey, holder, hholder, hv⟩ := mem_keyedBy.mp hmem
    obtain ⟨hfield, hstring, hv⟩ := mem_heldStrings.mp hv
    simp only [isKey, Bool.and_eq_true, Bool.or_eq_true, decide_eq_true_eq] at hkey
    exact ⟨pair, hpair, his, before, rest, hchildren, hkey.1, hkey.2, holder, hholder, hfield,
      hstring, hv⟩
  · rintro ⟨pair, hpair, his, before, rest, hchildren, hrole, hkind, holder, hholder, hfield,
      hstring, hv⟩
    have hkey : isKey k = true := by
      simp only [isKey, Bool.and_eq_true, Bool.or_eq_true, decide_eq_true_eq]
      exact ⟨hrole, hkind⟩
    exact ⟨pair, hpair, mem_keyedBy.mpr ⟨his, before, rest, hchildren, hkey, holder, hholder,
      mem_heldStrings.mpr ⟨hfield, hstring, hv⟩⟩⟩

/-- What stands in a pair stands between two of its bytes, and its values behind the first. -/
theorem keyed_value (hn : n.Placed cs) (hkeyed : Keyed n.children)
    (hv : (k, v) ∈ keyedBy heldStrings n) :
    n.start < v.start ∧ v.stop ≤ n.stop ∧ v.is .string ∧ v.Placed cs := by
  obtain ⟨-, before, rest, hchildren, -, h, hh, hv⟩ := mem_keyedBy.mp hv
  obtain ⟨hfield, hstring, hv⟩ := mem_heldStrings.mp hv
  have hmem : h ∈ n.children := by
    rw [hchildren]
    exact List.mem_append_right _ (List.mem_cons_of_mem _ hh)
  -- the value stands behind the colon
  obtain ⟨front, colon, behind, hshape, hkind, hlt, -, hfront, -⟩ := hkeyed
  have hsolid : ¬h.is .comment := by
    rcases hv with rfl | ⟨harray, -⟩
    · simp only [Node.is, decide_eq_true_eq] at hstring ⊢
      simp [hstring]
    · simp only [Node.is, decide_eq_true_eq] at harray ⊢
      simp [harray]
  have hbehind : h ∈ behind := by
    rw [hshape] at hmem
    rcases List.mem_append.mp hmem with hmem | hmem
    · exact absurd (hfront h hmem hfield) hsolid
    · rcases List.mem_cons.mp hmem with rfl | hmem
      · rcases hv with rfl | ⟨harray, -⟩
        · simp [Node.is, hkind] at hstring
        · simp [Node.is, hkind] at harray
      · exact hmem
  have hrow := hn.children
  rw [hshape] at hrow
  obtain ⟨hfrontRow, -, hbehindRow⟩ := Node.row_split hrow
  have hle := Node.row_le hfrontRow
  obtain ⟨hstart, hplaced, hstop⟩ := Node.row_of_mem hbehindRow hbehind
  rcases hv with rfl | ⟨-, hv⟩
  · exact ⟨by omega, hstop, hstring, hplaced⟩
  · obtain ⟨hstart', hplaced', hstop'⟩ := Node.row_of_mem hplaced.children hv
    exact ⟨by omega, by omega, hstring, hplaced'⟩

/-- Two strings with something in them that start at different bytes. -/
def StartApart (x y : Node × Node) : Prop :=
  x.2.start < x.2.stop → y.2.start < y.2.stop → x.2.start ≠ y.2.start

/-- The strings of a row of values start at different bytes. -/
theorem pairwise_heldStrings (h : Row cs lo ns hi) :
    (ns.flatMap heldStrings).Pairwise fun v w =>
      v.start < v.stop → w.start < w.stop → v.start ≠ w.start := by
  rw [List.pairwise_flatMap]
  constructor
  · intro value hvalue
    have hplaced := (Node.row_of_mem h hvalue).2.1
    unfold heldStrings
    by_cases hstring : value.is .string = true
    · have hempty : elementStrings value = [] := by
        simp only [Node.is, decide_eq_true_eq] at hstring
        simp [elementStrings, Node.is, hstring]
      rw [hempty, List.append_nil]
      unfold ownString
      split
      · exact List.pairwise_singleton _ _
      · exact .nil
    · have hempty : ownString value = [] := by simp [ownString, hstring]
      rw [hempty, List.nil_append]
      unfold elementStrings
      split
      · refine ((Node.pairwise_of_row hplaced.children).sublist List.filter_sublist).imp ?_
        intro v w hle hv _
        omega
      · exact .nil
  · have hinside {value v : Node} (hvalue : value ∈ ns) (hv : v ∈ heldStrings value) :
        value.start ≤ v.start ∧ v.stop ≤ value.stop := by
      obtain ⟨-, -, rfl | ⟨-, hv⟩⟩ := mem_heldStrings.mp hv
      · exact ⟨Nat.le_refl _, Nat.le_refl _⟩
      · obtain ⟨hstart, -, hstop⟩ :=
          Node.row_of_mem (Node.row_of_mem h hvalue).2.1.children hv
        exact ⟨hstart, hstop⟩
    refine (Node.pairwise_of_row h).imp_of_mem ?_
    intro a b ha hb hle v hv w hw hlt _
    have hva := hinside ha hv
    have hwb := hinside hb hw
    omega

/-- A pair has no more than one key. -/
theorem pairwise_keys (hkeyed : Keyed ns) : ns.Pairwise fun a b => isKey a → isKey b → False := by
  obtain ⟨before, colon, after, rfl, hkind, -, hone, -, hafter⟩ := hkeyed
  have hsolid {n : Node} (hn : isKey n = true) : n.is .comment = false := by
    simp only [isKey, Node.is, Bool.and_eq_true, Bool.or_eq_true, decide_eq_true_eq] at hn
    rcases hn.2 with hkind | hkind
    · simp [Node.is, hkind]
    · simp [Node.is, hkind]
  have hkeys : (before ++ colon :: after).filter isKey = before.filter isKey := by
    have hcolon : isKey colon = false := by simp [isKey, Node.is, hkind]
    have hnone : after.filter isKey = [] := by
      refine List.filter_eq_nil_iff.mpr fun n hn hkey => ?_
      have hfield : n.field = some .key := by
        simp only [isKey, Bool.and_eq_true, decide_eq_true_eq] at hkey
        exact hkey.1
      have hcomment := hafter n hn hfield
      rw [hsolid hkey] at hcomment
      cases hcomment
    rw [List.filter_append, List.filter_cons, hcolon, hnone]
    simp
  have hle : ((before ++ colon :: after).filter isKey).length ≤ 1 := by
    rw [hkeys]
    refine Nat.le_trans ?_ hone
    exact (List.monotone_filter_right before fun n hn => by simp [hsolid hn]).length_le
  rw [← List.pairwise_filter]
  generalize (before ++ colon :: after).filter isKey = keys at hle
  cases keys with
  | nil => exact .nil
  | cons n rest =>
    obtain rfl : rest = [] :=
      List.length_eq_zero_iff.mp (Nat.le_zero.mp (Nat.le_of_succ_le_succ hle))
    exact List.pairwise_singleton _ _

/-- A pair leads to strings that start at different bytes. -/
theorem pairwise_keyedBy (hn : n.Placed cs) (hkeyed : n.is .pair → Keyed n.children) :
    (keyedBy heldStrings n).Pairwise StartApart := by
  unfold keyedBy
  split
  · next hpair =>
    have hfst (ns : List Node) : (Pattern.suffixes ns).map Prod.fst = ns := by
      induction ns with
      | nil => rfl
      | cons n ns ih => rw [Pattern.suffixes, List.map_cons, ih]
    rw [List.pairwise_flatMap]
    constructor
    · rintro ⟨key, rest⟩ hsuffix
      obtain ⟨before, hchildren⟩ := Pattern.mem_suffixes.mp hsuffix
      have hrow := hn.children
      rw [hchildren] at hrow
      split
      · rw [List.pairwise_map]
        exact pairwise_heldStrings (Node.row_split hrow).2.2
      · exact .nil
    · have hkeys := pairwise_keys (hkeyed hpair)
      rw [← hfst n.children, List.pairwise_map] at hkeys
      refine hkeys.imp ?_
      intro a b hnot x hx y hy
      split at hx
      · next ha =>
        split at hy
        · next hb => exact (hnot ha hb).elim
        · cases hy
      · cases hx
  · exact .nil

/-- There is no pair in a string. -/
theorem not_pair_of_string (hv : v.Placed cs) (hstring : v.is .string) (hb : b ∈ v.preorder)
    (hpair : b.is .pair) (hkeyed : Keyed b.children) : False := by
  simp only [Node.is, decide_eq_true_eq] at hstring hpair
  rcases Node.mem_preorder.mp hb with rfl | ⟨c, hc, hb⟩
  · rw [hstring] at hpair
    cases hpair
  · have hleaf := (hv.flat hstring c hc).1
    rcases Node.mem_preorder.mp hb with rfl | ⟨d, hd, -⟩
    · obtain ⟨before, colon, after, hchildren, -⟩ := hkeyed
      rw [hleaf] at hchildren
      simp at hchildren
    · rw [hleaf] at hd
      cases hd

/-- A pair below a node stands apart from the strings that the node itself leads to. -/
theorem apart_of_keyedBy (hn : n.Placed cs) (hv : (k, v) ∈ keyedBy heldStrings n)
    {c : Node} (hc : c ∈ n.children) (hb : b ∈ c.preorder) (hpair : b.is .pair)
    (hkeyed : Keyed b.children) : Apart b v := by
  obtain ⟨-, before, rest, hchildren, -, h, hh, hv⟩ := mem_keyedBy.mp hv
  obtain ⟨-, hstring, hv⟩ := mem_heldStrings.mp hv
  have hmem : h ∈ n.children := by
    rw [hchildren]
    exact List.mem_append_right _ (List.mem_cons_of_mem _ hh)
  have hplaced := (Node.row_of_mem hn.children hmem).2.1
  have hself (m : Node) : m ∈ m.preorder := Node.mem_preorder.mpr (.inl rfl)
  rcases hv with rfl | ⟨harray, hv⟩
  · refine Node.apart_of_row hn.children hc hmem hb (hself v) ?_
    rintro rfl
    exact (not_pair_of_string hplaced hstring hb hpair hkeyed).elim
  · refine Node.apart_of_row hn.children hc hmem hb
      (Node.mem_preorder.mpr (.inr ⟨v, hv, hself v⟩)) ?_
    rintro rfl
    -- the pair stands in the array, too, but not in this string of it
    rcases Node.mem_preorder.mp hb with rfl | ⟨d, hd, hb⟩
    · simp only [Node.is, decide_eq_true_eq] at harray hpair
      rw [harray] at hpair
      cases hpair
    · refine Node.apart_of_row hplaced.children hd hv hb (hself v) ?_
      rintro rfl
      exact (not_pair_of_string (Node.row_of_mem hplaced.children hv).2.1 hstring hb hpair
        hkeyed).elim

/-- The strings that are values start at different bytes, wherever they stand in a tree. -/
theorem pairwise_values (htree : tree.Placed cs)
    (hkeyed : ∀ n ∈ tree.preorder, n.is .pair → Keyed n.children) :
    (values tree).Pairwise StartApart := by
  induction tree using Node.induction with
  | h kind f a b ns ih =>
    have hrow := htree.children
    have hvalues : values (.mk kind f a b ns) =
        keyedBy heldStrings (.mk kind f a b ns) ++ ns.flatMap values := by
      have hall (ns : List Node) : (Node.preorderAll ns).flatMap (keyedBy heldStrings) =
          ns.flatMap values := by
        induction ns with
        | nil => rfl
        | cons n ns ih => rw [Node.preorderAll, List.flatMap_append, ih, List.flatMap_cons, values]
      rw [values, Node.preorder, List.flatMap_cons, hall]
    have hbelow {c : Node} (hc : c ∈ ns) {m : Node} (hm : m ∈ c.preorder) :
        m.is .pair → Keyed m.children :=
      hkeyed m (Node.mem_preorder.mpr (.inr ⟨c, hc, hm⟩))
    -- where a value of a tree in the row stands
    have hinside {c : Node} (hc : c ∈ ns) {x : Node × Node} (hx : x ∈ values c) :
        ∃ pair ∈ c.preorder, pair.is .pair ∧ pair.start < x.2.start ∧ x.2.stop ≤ pair.stop ∧
          c.start ≤ pair.start ∧ pair.stop ≤ c.stop := by
      obtain ⟨pair, hpair, hx⟩ := List.mem_flatMap.mp hx
      have his := (mem_keyedBy.mp hx).1
      obtain ⟨hplaced, hstart, hstop⟩ := (Node.row_of_mem hrow hc).2.1.below hpair
      obtain ⟨hlt, hle, -⟩ := keyed_value hplaced (hbelow hc hpair his) hx
      exact ⟨pair, hpair, his, hlt, hle, hstart, hstop⟩
    rw [hvalues, List.pairwise_append, List.pairwise_flatMap]
    refine ⟨pairwise_keyedBy htree (hkeyed _ List.mem_cons_self), ⟨?_, ?_⟩, ?_⟩
    · intro c hc
      exact ih c hc (Node.row_of_mem hrow hc).2.1 fun m hm => hbelow hc hm
    · refine (Node.pairwise_of_row hrow).imp_of_mem ?_
      intro c d hc hd hle x hx y hy hxlt hylt
      obtain ⟨_, -, -, -, hxstop, -, hcstop⟩ := hinside hc hx
      obtain ⟨_, -, -, hystart, -, hdstart, -⟩ := hinside hd hy
      omega
    · intro x hx y hy hxlt hylt
      obtain ⟨c, hc, hy⟩ := List.mem_flatMap.mp hy
      obtain ⟨pair, hpair, his, hystart, hystop, -⟩ := hinside hc hy
      have hapart := apart_of_keyedBy htree hx hc hpair his (hbelow hc hpair his)
      unfold Apart at hapart
      omega

/-- Two matches never find strings that start at the same byte. -/
theorem pairwise_runAll (htree : tree.Placed cs)
    (hkeyed : ∀ n ∈ tree.preorder, n.is .pair → Keyed n.children) :
    (Query.runAll [⟨[stringPair]⟩, ⟨[arrayPair]⟩] [] cs tree).Pairwise fun m m' =>
      ∀ k v k' v', m.captures = captureBoth (k, v) → m'.captures = captureBoth (k', v') →
        StartApart (k, v) (k', v') := by
  have hlist : ((values tree).map captureBoth).Pairwise fun c c' => ∀ k v k' v',
      c = captureBoth (k, v) → c' = captureBoth (k', v') → StartApart (k, v) (k', v') := by
    rw [List.pairwise_map]
    refine (pairwise_values htree hkeyed).imp ?_
    rintro ⟨key, value⟩ ⟨key', value'⟩ hapart k v k' v' heq heq'
    simp only [captureBoth, List.cons.injEq, Prod.mk.injEq, true_and, and_true] at heq heq'
    obtain ⟨rfl, rfl⟩ := heq
    obtain ⟨rfl, rfl⟩ := heq'
    exact hapart
  have hsymm {c c' : Captures} (h : ∀ k v k' v', c = captureBoth (k, v) →
      c' = captureBoth (k', v') → StartApart (k, v) (k', v')) :
      ∀ k v k' v', c' = captureBoth (k, v) → c = captureBoth (k', v') →
        StartApart (k, v) (k', v') :=
    fun k v k' v' hc hc' hlt hlt' => (h k' v' k v hc' hc hlt' hlt).symm
  have hfound := (captures_runAll_perm cs tree).symm.pairwise hlist hsymm
  rwa [List.pairwise_map] at hfound

end Retarget.Relocation
