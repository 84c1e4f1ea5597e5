import Retarget.Proofs.Extraction.FirstMatch
import Retarget.Proofs.Syntax.Moves

/-!
# The calls that a walk reports

Calls are gathered while a cursor walks through a tree.  The walk ends, it reads every place of the
tree once and in pre-order, and so it reports exactly the nodes that are calls, in that order
(`walk_reads_places_once`).
-/

namespace Retarget.Extraction

open Syntax

variable {cs : List Char} {root n : Node} {c : Call}

/-- A call or constructor expression with a bare name. -/
def IsCall (cs : List Char) (n : Node) : Prop :=
  ∃ name, IsCallOf cs name n

theorem isCall_iff : IsCall cs n ↔ (callOf? cs n).isSome = true := by
  rw [Option.isSome_iff_exists]
  constructor
  · rintro ⟨name, hname⟩
    obtain ⟨c, hc, -⟩ := isCallOf_iff.mp hname
    exact ⟨c, hc⟩
  · rintro ⟨c, hc⟩
    exact ⟨c.name, isCallOf_iff.mpr ⟨c, hc, rfl⟩⟩

instance (cs : List Char) (n : Node) : Decidable (IsCall cs n) :=
  decidable_of_iff _ isCall_iff.symm

theorem node_of_callOf? (h : callOf? cs n = some c) :
    c.node = n ∧ c.arguments = n.child? .arguments := by
  obtain ⟨role, callee, -, -, -, rfl⟩ := callOf?_eq_some.mp h
  exact ⟨rfl, rfl⟩

/-- What is reported of a node that calls something. -/
theorem isCallOf_of_mem_calls (h : c ∈ calls cs root) :
    IsCallOf cs c.name c.node ∧ c.arguments = c.node.child? .arguments := by
  rw [calls_eq] at h
  obtain ⟨n, -, hn⟩ := List.mem_filterMap.mp h
  obtain ⟨rfl, harguments⟩ := node_of_callOf? hn
  exact ⟨isCallOf_iff.mpr ⟨c, hn, rfl⟩, harguments⟩

/-- The nodes that are reported are those that call something, in pre-order. -/
theorem map_node_calls (cs : List Char) (root : Node) :
    (calls cs root).map Call.node = root.preorder.filter fun n => decide (IsCall cs n) := by
  rw [calls_eq]
  induction root.preorder with
  | nil => rfl
  | cons n ns ih =>
    cases hn : callOf? cs n with
    | none =>
      have hcall : ¬IsCall cs n := by simp [isCall_iff, hn]
      rw [List.filterMap_cons_none hn, List.filter_cons_of_neg (by simpa using hcall), ih]
    | some c =>
      have hcall : IsCall cs n := by simp [isCall_iff, hn]
      rw [List.filterMap_cons_some hn, List.filter_cons_of_pos (by simpa using hcall),
        List.map_cons, ih, (node_of_callOf? hn).1]

/-- The loop of a full walk ends.  It reads exactly the places of the tree, each of them once and in
pre-order, so the calls it reports are the nodes that call something, in pre-order. -/
theorem walk_reads_places_once (cs : List Char) (root : Node) :
    ∃ places : List Cursor,
      (∀ visited result, Cursor.WalksFully (.atRoot root) visited result ↔
        visited = places ∧ result = none) ∧
      (∀ c, c ∈ places ↔ Cursor.Within root c) ∧ places.Nodup ∧
      places.map Cursor.node = root.preorder ∧ Cursor.walk root = root.preorder ∧
      ((calls cs root).map Call.node = root.preorder.filter fun n => decide (IsCall cs n)) ∧
      ∀ call ∈ calls cs root,
        IsCallOf cs call.name call.node ∧ call.arguments = call.node.child? .arguments := by
  obtain ⟨places, result, hwalks⟩ :=
    Cursor.exists_walks (fun _ => false) (fun _ => true) (.atRoot root)
  obtain ⟨hnodes, rfl⟩ := Cursor.WalksFully.map_node hwalks
  have hpreorder : places.map Cursor.node = root.preorder := by
    rw [hnodes, Cursor.pending_atRoot]
  refine ⟨places, ?_, fun c => Cursor.WalksFully.mem_iff hwalks, hwalks.nodup, hpreorder,
    Cursor.walk_eq_preorder root, map_node_calls cs root, fun call => isCallOf_of_mem_calls⟩
  intro visited result
  constructor
  · exact hwalks.unique
  · rintro ⟨rfl, rfl⟩
    exact hwalks

/-- A text with a call inside the arguments of another one, and a constructor expression. -/
def nestedText : String :=
  "f(g(x)); new h;\n"

theorem walk_reads_places_once_nested :
    ∃ tree places, Dialect.parse .typescript nestedText = .ok tree ∧
      Cursor.WalksFully (.atRoot tree) places none ∧ places.length = 19 ∧
      (calls nestedText.toList tree).map Call.name = ["f", "g", "h"] ∧
      ∀ call ∈ calls nestedText.toList tree, IsCallOf nestedText.toList call.name call.node := by
  have hread : (Dialect.parse .typescript nestedText).map (fun tree =>
      (tree.size, (calls nestedText.toList tree).map Call.name)) = .ok (19, ["f", "g", "h"]) := by
    decide +kernel
  obtain ⟨tree, hparse, hread⟩ := eq_ok_of_map hread
  obtain ⟨hsize, hnames⟩ := Prod.mk.inj hread
  obtain ⟨places, hwalks, -, -, hnodes, -, -, hcalls⟩ :=
    walk_reads_places_once nestedText.toList tree
  have hlength : places.length = 19 := by
    rw [← List.length_map Cursor.node, hnodes, Node.length_preorder, hsize]
  exact ⟨tree, places, hparse, (hwalks _ _).mpr ⟨rfl, rfl⟩, hlength, hnames,
    fun call hcall => (hcalls call hcall).1⟩

end Retarget.Extraction
