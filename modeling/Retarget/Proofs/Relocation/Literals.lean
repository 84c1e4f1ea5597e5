import Retarget.Proofs.Syntax.Matching
import Retarget.Proofs.Path.Rebasing
import Retarget.Relocation.Fragment

/-!
# The path literals of a fragment

Relocation reads a fragment with two queries.  Their matches are the strings that are
values of named pairs, alone or inside an array, and it takes the matches one by one into
account: `Considered` says what it has found after some of them.  A string that is spelled
anew has one edit, one that cannot be is on the list of those left alone, and a string
without either is spelled as before.
-/

namespace Retarget.Relocation

open Syntax

variable {cs : List Char} {tree n k v : Node} {c : Captures} {keys : List String}
  {old new : Path} {q : Char} {literal : List Char} {seen : List Match} {p : Progress} {m : Match}

/-! ## Strings that are values -/

/-- A string that is the value of a named pair, alone or inside an array. -/
def Valued (tree key value : Node) : Prop :=
  ∃ pair ∈ tree.preorder, pair.is .pair ∧ ∃ before rest, pair.children = before ++ key :: rest ∧
    key.field = some .key ∧ (key.is .propertyIdentifier ∨ key.is .string) ∧
      ∃ holder ∈ rest, holder.field = some .value ∧ value.is .string ∧
        (value = holder ∨ holder.is .array ∧ value ∈ holder.children)

/-- The key of a pair. -/
def keyPattern : Pattern :=
  .captured "key" (.inRole .key
    (.oneOf [.named (some .propertyIdentifier) [], .named (some .string) []]))

/-- A string as the value of a pair. -/
def valuePattern : Pattern :=
  .captured "value" (.inRole .value (.named (some .string) []))

/-- A string inside an array as the value of a pair. -/
def elementPattern : Pattern :=
  .inRole .value (.named (some .array) [.captured "value" (.named (some .string) [])])

theorem mem_matchNode_key :
    c ∈ Pattern.matchNode cs keyPattern n ↔
      n.field = some .key ∧ (n.is .propertyIdentifier ∨ n.is .string) ∧ c = [("key", n)] := by
  rw [keyPattern, Pattern.mem_matchNode_captured]
  constructor
  · rintro ⟨inner, hinner, rfl⟩
    obtain ⟨hfield, p, hp, hn⟩ :=
      Pattern.mem_matchNode_inRole.mp hinner |>.imp_right Pattern.mem_matchNode_oneOf.mp
    rcases List.mem_cons.mp hp with rfl | hp
    · obtain ⟨his, rfl⟩ := Pattern.mem_matchNode_leaf.mp hn
      exact ⟨hfield, .inl his, rfl⟩
    · obtain rfl := List.mem_singleton.mp hp
      obtain ⟨his, rfl⟩ := Pattern.mem_matchNode_leaf.mp hn
      exact ⟨hfield, .inr his, rfl⟩
  · rintro ⟨hfield, his, rfl⟩
    refine ⟨[], Pattern.mem_matchNode_inRole.mpr ⟨hfield, Pattern.mem_matchNode_oneOf.mpr ?_⟩, rfl⟩
    rcases his with his | his
    · exact ⟨_, List.mem_cons_self, Pattern.mem_matchNode_leaf.mpr ⟨his, rfl⟩⟩
    · exact ⟨_, List.mem_cons_of_mem _ List.mem_cons_self, Pattern.mem_matchNode_leaf.mpr ⟨his, rfl⟩⟩

theorem mem_matchNode_value :
    c ∈ Pattern.matchNode cs (.captured "value" (.named (some .string) [])) n ↔
      n.is .string ∧ c = [("value", n)] := by
  rw [Pattern.mem_matchNode_captured]
  simp only [Pattern.mem_matchNode_leaf]
  constructor
  · rintro ⟨inner, ⟨his, rfl⟩, rfl⟩
    exact ⟨his, rfl⟩
  · rintro ⟨his, rfl⟩
    exact ⟨[], ⟨his, rfl⟩, rfl⟩


/-- What a string as the value of a pair, or in an array that is, is captured as. -/
theorem mem_matchNode_holder {holder : Node} :
    (c ∈ Pattern.matchNode cs valuePattern holder ∨
      c ∈ Pattern.matchNode cs elementPattern holder) ↔
    holder.field = some .value ∧ ∃ v, v.is .string ∧
      (v = holder ∨ holder.is .array ∧ v ∈ holder.children) ∧ c = [("value", v)] := by
  constructor
  · rintro (h | h)
    · obtain ⟨inner, hinner, rfl⟩ := Pattern.mem_matchNode_captured.mp h
      obtain ⟨hfield, hleaf⟩ := Pattern.mem_matchNode_inRole.mp hinner
      obtain ⟨his, rfl⟩ := Pattern.mem_matchNode_leaf.mp hleaf
      exact ⟨hfield, holder, his, .inl rfl, rfl⟩
    · obtain ⟨hfield, hnamed⟩ := Pattern.mem_matchNode_inRole.mp h
      obtain ⟨harray, hchildren⟩ := Pattern.mem_matchNode_named.mp hnamed
      obtain ⟨before, v, rest, hsplit, here, hhere, later, hlater, rfl⟩ :=
        Pattern.mem_matchChildren_cons.mp hchildren
      obtain ⟨his, rfl⟩ := mem_matchNode_value.mp hhere
      obtain rfl := Pattern.mem_matchChildren_nil.mp hlater
      exact ⟨hfield, v, his, .inr ⟨harray, by simp [hsplit]⟩, rfl⟩
  · rintro ⟨hfield, v, his, rfl | ⟨harray, hv⟩, rfl⟩
    · left
      refine Pattern.mem_matchNode_captured.mpr ⟨[], ?_, rfl⟩
      exact Pattern.mem_matchNode_inRole.mpr ⟨hfield, Pattern.mem_matchNode_leaf.mpr ⟨his, rfl⟩⟩
    · right
      refine Pattern.mem_matchNode_inRole.mpr ⟨hfield, Pattern.mem_matchNode_named.mpr ⟨harray, ?_⟩⟩
      obtain ⟨before, rest, hsplit⟩ := List.append_of_mem hv
      exact Pattern.mem_matchChildren_cons.mpr ⟨before, v, rest, hsplit, [("value", v)],
        mem_matchNode_value.mpr ⟨his, rfl⟩, [], Pattern.mem_matchChildren_nil.mpr rfl, rfl⟩

/-- A pair with a key and something behind it. -/
theorem mem_matchNode_pair {inner : Pattern} :
    c ∈ Pattern.matchNode cs (.named (some .pair) [keyPattern, inner]) n ↔
      n.is .pair ∧ ∃ before key rest, n.children = before ++ key :: rest ∧ key.field = some .key ∧
        (key.is .propertyIdentifier ∨ key.is .string) ∧
          ∃ holder ∈ rest, ∃ later ∈ Pattern.matchNode cs inner holder,
            c = ("key", key) :: later := by
  rw [Pattern.mem_matchNode_named, Pattern.mem_matchChildren_cons]
  refine and_congr_right fun _ => ?_
  constructor
  · rintro ⟨before, key, _, hchildren, _, hkey, _, hrest, rfl⟩
    obtain ⟨hfield, his, rfl⟩ := mem_matchNode_key.mp hkey
    obtain ⟨between, holder, behind, rfl, later, hlater, _, hnil, rfl⟩ :=
      Pattern.mem_matchChildren_cons.mp hrest
    obtain rfl := Pattern.mem_matchChildren_nil.mp hnil
    exact ⟨before, key, _, hchildren, hfield, his, holder, by simp, later, hlater, by simp⟩
  · rintro ⟨before, key, rest, hchildren, hfield, his, holder, hholder, later, hlater, rfl⟩
    refine ⟨before, key, rest, hchildren, _, mem_matchNode_key.mpr ⟨hfield, his, rfl⟩, later, ?_, rfl⟩
    obtain ⟨between, behind, rfl⟩ := List.append_of_mem hholder
    exact Pattern.mem_matchChildren_cons.mpr ⟨between, holder, behind, rfl, later, hlater, [],
      Pattern.mem_matchChildren_nil.mpr rfl, (List.append_nil later).symm⟩

/-- The queries of relocation find the strings that are values. -/
theorem mem_found :
    (∃ m ∈ Query.runAll [⟨[stringPair]⟩, ⟨[arrayPair]⟩] [] cs tree, m.captures = c) ↔
      ∃ k v, Valued tree k v ∧ c = [("key", k), ("value", v)] := by
  have hfound :
      (∃ m ∈ Query.runAll [⟨[stringPair]⟩, ⟨[arrayPair]⟩] [] cs tree, m.captures = c) ↔
        ∃ p ∈ [stringPair, arrayPair], ∃ n ∈ tree.preorder, c ∈ p.matchNode cs n :=
    Query.mem_runAll [stringPair, arrayPair]
  rw [hfound]
  constructor
  · rintro ⟨p, hp, n, hn, hc⟩
    -- whichever of the two found it, there is a pair with a key and a holder of the string
    have hpair : ∃ inner, c ∈ Pattern.matchNode cs (.named (some .pair) [keyPattern, inner]) n ∧
        (inner = valuePattern ∨ inner = elementPattern) := by
      rcases List.mem_cons.mp hp with rfl | hp
      · exact ⟨valuePattern, hc, .inl rfl⟩
      · obtain rfl := List.mem_singleton.mp hp
        exact ⟨elementPattern, hc, .inr rfl⟩
    obtain ⟨inner, hinner, hwhich⟩ := hpair
    obtain ⟨his, before, key, rest, hchildren, hfield, hkey, holder, hholder, later, hlater, rfl⟩ :=
      mem_matchNode_pair.mp hinner
    have hvalue := mem_matchNode_holder.mp
      (hwhich.imp (fun h => h ▸ hlater) fun h => h ▸ hlater)
    obtain ⟨hrole, v, hstring, hv, rfl⟩ := hvalue
    exact ⟨key, v, ⟨n, hn, his, before, rest, hchildren, hfield, hkey, holder, hholder, hrole,
      hstring, hv⟩, rfl⟩
  · rintro ⟨key, v, ⟨n, hn, his, before, rest, hchildren, hfield, hkey, holder, hholder, hrole,
      hstring, hv⟩, rfl⟩
    have hmatch {inner : Pattern} (h : [("value", v)] ∈ Pattern.matchNode cs inner holder) :
        [("key", key), ("value", v)] ∈
          Pattern.matchNode cs (.named (some .pair) [keyPattern, inner]) n :=
      mem_matchNode_pair.mpr ⟨his, before, key, rest, hchildren, hfield, hkey, holder, hholder, _, h,
        rfl⟩
    rcases mem_matchNode_holder.mpr ⟨hrole, v, hstring, hv, rfl⟩ with h | h
    · exact ⟨stringPair, List.mem_cons_self, n, hn, hmatch h⟩
    · exact ⟨arrayPair, List.mem_cons_of_mem _ List.mem_cons_self, n, hn, hmatch h⟩

end Retarget.Relocation
