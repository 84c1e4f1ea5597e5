import Retarget.Proofs.Syntax.Placed
import Retarget.Syntax.Query

/-!
# What patterns match

A pattern matches a node in as many ways as its parts match parts of the node, and the
matches of queries in a tree are those of its nodes.  The lemmas say so construct by
construct.
-/

namespace Retarget.Syntax

variable {cs : List Char} {n : Node} {ns rest : List Node} {p : Pattern} {ps : List Pattern}
  {c : Captures}

namespace Pattern

theorem mem_suffixes : (n, rest) ∈ suffixes ns ↔ ∃ before, ns = before ++ n :: rest := by
  induction ns with
  | nil => simp [suffixes]
  | cons m ns ih =>
    rw [suffixes, List.mem_cons, ih]
    constructor
    · rintro (heq | ⟨before, rfl⟩)
      · obtain ⟨rfl, rfl⟩ := Prod.mk.inj heq
        exact ⟨[], rfl⟩
      · exact ⟨m :: before, rfl⟩
    · rintro ⟨_ | ⟨x, before⟩, heq⟩
      · obtain ⟨rfl, rfl⟩ := List.cons.inj heq
        exact .inl rfl
      · exact .inr ⟨before, (List.cons.inj heq).2⟩

theorem mem_matchChildren_nil : c ∈ matchChildren cs [] ns ↔ c = [] := by
  simp [matchChildren]

theorem mem_matchChildren_cons :
    c ∈ matchChildren cs (p :: ps) ns ↔ ∃ before n rest, ns = before ++ n :: rest ∧
      ∃ here ∈ matchNode cs p n, ∃ later ∈ matchChildren cs ps rest, c = here ++ later := by
  rw [matchChildren, List.mem_flatMap]
  constructor
  · rintro ⟨⟨n, rest⟩, hsuffix, hc⟩
    obtain ⟨before, rfl⟩ := mem_suffixes.mp hsuffix
    obtain ⟨here, hhere, hc⟩ := List.mem_flatMap.mp hc
    obtain ⟨later, hlater, rfl⟩ := List.mem_map.mp hc
    exact ⟨before, n, rest, rfl, here, hhere, later, hlater, rfl⟩
  · rintro ⟨before, n, rest, rfl, here, hhere, later, hlater, rfl⟩
    refine ⟨(n, rest), mem_suffixes.mpr ⟨before, rfl⟩, ?_⟩
    exact List.mem_flatMap.mpr ⟨here, hhere, List.mem_map.mpr ⟨later, hlater, rfl⟩⟩

theorem mem_matchNode_named {t : NodeType} :
    c ∈ matchNode cs (.named (some t) ps) n ↔ n.is t ∧ c ∈ matchChildren cs ps n.children := by
  rw [matchNode]
  by_cases h : n.is t = true
  · simp [h]
  · simp [h]

theorem mem_matchNode_leaf {t : NodeType} :
    c ∈ matchNode cs (.named (some t) []) n ↔ n.is t ∧ c = [] := by
  rw [mem_matchNode_named, mem_matchChildren_nil]

theorem mem_matchNode_inRole {f : Field} :
    c ∈ matchNode cs (.inRole f p) n ↔ n.field = some f ∧ c ∈ matchNode cs p n := by
  rw [matchNode]
  by_cases h : n.field = some f
  · simp [h]
  · simp [h]

theorem mem_matchNode_captured {name : String} :
    c ∈ matchNode cs (.captured name p) n ↔
      ∃ inner ∈ matchNode cs p n, c = (name, n) :: inner := by
  rw [matchNode, List.mem_map]
  constructor
  · rintro ⟨inner, hinner, rfl⟩
    exact ⟨inner, hinner, rfl⟩
  · rintro ⟨inner, hinner, rfl⟩
    exact ⟨inner, hinner, rfl⟩

theorem mem_matchNode_oneOf :
    c ∈ matchNode cs (.oneOf ps) n ↔ ∃ p ∈ ps, c ∈ matchNode cs p n := by
  rw [matchNode]
  induction ps with
  | nil => simp [matchAny]
  | cons p ps ih => simp [matchAny, ih]

end Pattern

namespace Query

/-- The captures of queries of one pattern each. -/
theorem mem_runAll (patterns : List Pattern) {tree : Node} :
    (∃ m ∈ runAll (patterns.map fun p => ⟨[p]⟩) [] cs tree, m.captures = c) ↔
      ∃ p ∈ patterns, ∃ n ∈ tree.preorder, c ∈ p.matchNode cs n := by
  have hrun (p : Pattern) (m : Match) :
      m ∈ run ⟨[p]⟩ cs tree ↔ ∃ n ∈ tree.preorder, ∃ c ∈ p.matchNode cs n, ⟨0, c⟩ = m := by
    simp [run]
  have hmem (m : Match) : m ∈ runAll (patterns.map fun p => ⟨[p]⟩) [] cs tree ↔
      ∃ p ∈ patterns, ∃ n ∈ tree.preorder, ∃ c ∈ p.matchNode cs n, ⟨0, c⟩ = m := by
    simp [runAll, restrict, List.flatMap_map, List.mem_flatMap, hrun]
  constructor
  · rintro ⟨m, hm, rfl⟩
    obtain ⟨p, hp, n, hn, c, hc, rfl⟩ := (hmem m).mp hm
    exact ⟨p, hp, n, hn, hc⟩
  · rintro ⟨p, hp, n, hn, hc⟩
    exact ⟨⟨0, c⟩, (hmem _).mpr ⟨p, hp, n, hn, c, hc, rfl⟩, rfl⟩

end Query

end Retarget.Syntax
