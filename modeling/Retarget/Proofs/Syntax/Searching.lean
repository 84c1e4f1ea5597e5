import Retarget.Language
import Retarget.Proofs.Syntax.Moves

/-!
# The first node out of place

A search for something out of place descends only into the nodes that are flagged, and stops at the
first node that is out of place itself.  If exactly the trees that hold something out of place are
flagged (`Node.Flags`), it finds the first such node of the whole tree in pre-order, since what it
leaves out holds none.  So a text is accepted exactly if nothing in its tree is out of place
(`search_finds_first_bad`).
-/

namespace Retarget.Syntax

open Node (preorderAll)

variable {flagged : Node → Bool} {n tree : Node} {ns : List Node}

namespace Node

/-- A flag that tells of the nodes of a tree whether they or nodes below them are out of place. -/
def Flags (flagged : Node → Bool) (tree : Node) : Prop :=
  ∀ n ∈ tree.preorder, flagged n = true ↔ ∃ m ∈ n.preorder, m.isBad = true

theorem hasErrorAny_iff : hasErrorAny ns = true ↔ ∃ n ∈ ns, n.hasError = true := by
  induction ns with
  | nil => simp [hasErrorAny]
  | cons n ns ih => simp [hasErrorAny, ih]

theorem hasError_iff : n.hasError = true ↔ ∃ m ∈ n.preorder, m.isBad = true := by
  induction n using Node.induction with
  | h k f a b ns ih =>
    rw [hasError, Bool.or_eq_true, hasErrorAny_iff]
    constructor
    · rintro (hbad | ⟨n, hn, herror⟩)
      · exact ⟨_, List.mem_cons_self, hbad⟩
      · obtain ⟨m, hm, hbad⟩ := (ih n hn).mp herror
        exact ⟨m, mem_preorder.mpr (.inr ⟨n, hn, hm⟩), hbad⟩
    · rintro ⟨m, hm, hbad⟩
      rcases mem_preorder.mp hm with rfl | ⟨n, hn, hm⟩
      · exact .inl hbad
      · exact .inr ⟨n, hn, (ih n hn).mpr ⟨m, hm, hbad⟩⟩

theorem flags_hasError (tree : Node) : Flags hasError tree :=
  fun _ _ => hasError_iff

end Node

namespace Cursor

variable {c : Cursor} {places : List Cursor} {result : Option Node}

theorem nextSuspect_eq (c : Cursor) : c.nextSuspect = c.nextInto Node.hasError := by
  unfold nextSuspect nextInto next
  by_cases herror : c.node.hasError
  · rw [if_pos herror, if_pos herror]
  · rw [if_neg herror, if_neg herror]
    rfl

/-- What is left out below a node holds nothing out of place. -/
theorem find?_skipped (h : flagged n = true ↔ ∃ m ∈ n.preorder, m.isBad = true) :
    (if flagged n then [] else preorderAll n.children).find? Node.isBad = none := by
  by_cases hflagged : flagged n
  · rw [if_pos hflagged, List.find?_nil]
  · rw [if_neg hflagged, List.find?_eq_none]
    intro m hm hbad
    obtain ⟨k, hk, hm⟩ := Node.mem_preorderAll.mp hm
    exact hflagged (h.mpr ⟨m, Node.mem_preorder.mpr (.inr ⟨k, hk, hm⟩), hbad⟩)

/-- A search ends at the first node out of place that is still to be read. -/
theorem Walks.result_eq (h : Walks Node.isBad flagged c places result)
    (hflags : ∀ n ∈ c.pending, flagged n = true ↔ ∃ m ∈ n.preorder, m.isBad = true) :
    result = c.pending.find? Node.isBad := by
  induction h with
  | @stopped c hstop => rw [pending_eq, List.find?_cons_of_pos hstop]
  | @more c d places result hgo hmove _ ih =>
    have hnode := hflags c.node (by rw [pending_eq]; exact List.mem_cons_self)
    have hpending := pending_eq_nextInto flagged c
    rw [moves_iff.mp hmove] at hpending
    rw [hpending, List.find?_cons_of_neg (by simp [hgo]), List.find?_append, find?_skipped hnode,
      Option.none_or]
    refine ih fun n hn => hflags n ?_
    rw [hpending]
    exact List.mem_cons_of_mem _ (List.mem_append_right _ hn)
  | @ended c hgo hmove =>
    have hnode := hflags c.node (by rw [pending_eq]; exact List.mem_cons_self)
    rw [pending_eq_nextInto flagged c, moves_iff.mp hmove, List.find?_cons_of_neg (by simp [hgo]),
      List.find?_append, find?_skipped hnode]
    rfl

/-- A bounded search gets to the end of one that reads no more nodes. -/
theorem errorFrom_eq {bound : Nat} (h : Walks Node.isBad Node.hasError c places result)
    (hbound : places.length ≤ bound) : errorFrom bound c = result := by
  induction h generalizing bound with
  | stopped hstop =>
    obtain ⟨bound, rfl⟩ := Nat.exists_eq_succ_of_ne_zero (Nat.ne_of_gt hbound)
    rw [errorFrom, if_pos hstop]
  | @more c d places result hgo hmove _ ih =>
    obtain ⟨bound, rfl⟩ :=
      Nat.exists_eq_succ_of_ne_zero (Nat.ne_of_gt (Nat.lt_of_lt_of_le (Nat.succ_pos _) hbound))
    rw [errorFrom, if_neg (by simp [hgo]), nextSuspect_eq, moves_iff.mp hmove]
    exact ih (Nat.le_of_succ_le_succ hbound)
  | ended hgo hmove =>
    obtain ⟨bound, rfl⟩ := Nat.exists_eq_succ_of_ne_zero (Nat.ne_of_gt hbound)
    rw [errorFrom, if_neg (by simp [hgo]), nextSuspect_eq, moves_iff.mp hmove]

/-- A search of a tree ends at the first node out of place. -/
theorem Walks.find?_of_flags (h : Walks Node.isBad flagged (atRoot tree) places result)
    (hflags : Node.Flags flagged tree) : result = tree.preorder.find? Node.isBad := by
  have hresult := h.result_eq (by rwa [pending_atRoot])
  rwa [pending_atRoot] at hresult

/-- The first node out of place is found. -/
theorem firstError_eq (tree : Node) : firstError tree = tree.preorder.find? Node.isBad := by
  unfold firstError
  by_cases herror : tree.hasError
  · rw [if_pos herror]
    obtain ⟨places, result, hwalks⟩ := exists_walks Node.isBad Node.hasError (atRoot tree)
    have hlength := hwalks.length_le
    rw [pending_atRoot, Node.length_preorder] at hlength
    rw [errorFrom_eq hwalks hlength]
    exact hwalks.find?_of_flags (Node.flags_hasError tree)
  · rw [if_neg herror, eq_comm, List.find?_eq_none]
    intro n hn hbad
    exact herror (Node.hasError_iff.mpr ⟨n, hn, hbad⟩)

end Cursor

namespace Dialect

variable {d : Dialect} {text : String}

/-- A text is accepted with its tree if nothing there is out of place. -/
theorem parse_eq_ok_iff : d.parse text = .ok tree ↔
    tree = Tree.ofText d text ∧ ∀ n ∈ tree.preorder, n.isBad = false := by
  unfold parse parseChars Tree.ofText
  dsimp only
  rw [Cursor.firstError_eq]
  constructor
  · intro h
    split at h
    · next hnone =>
      obtain rfl := Except.ok.inj h
      refine ⟨rfl, fun n hn => ?_⟩
      simpa using List.find?_eq_none.mp hnone n hn
    · cases h
  · rintro ⟨rfl, hsound⟩
    have hnone : (Tree.ofChars d text.toList).preorder.find? Node.isBad = none := by
      rw [List.find?_eq_none]
      intro n hn
      simp [hsound n hn]
    rw [hnone]

/-- Otherwise the first node out of place is reported. -/
theorem parse_eq_error {before after : List Node} {bad : Node}
    (h : (Tree.ofText d text).preorder = before ++ bad :: after) (hbad : bad.isBad = true)
    (hbefore : ∀ n ∈ before, n.isBad = false) :
    d.parse text = .error (.parse ⟨"<source>"⟩ ((pointIn text.toList bad.start).row + 1)
      ((pointIn text.toList bad.start).column + 1) (complaint bad)) := by
  have hfind : (Tree.ofChars d text.toList).preorder.find? Node.isBad = some bad := by
    rw [List.find?_eq_some_iff_append]
    refine ⟨hbad, before, after, h, fun n hn => ?_⟩
    simp [hbefore n hn]
  unfold parse parseChars
  dsimp only
  rw [Cursor.firstError_eq, hfind]

/-- Whatever the tree is, the search ends, and if exactly the trees that hold something out of place
are flagged, it ends at the first node out of place in pre-order, if there is one.  A text is
accepted exactly if its tree holds none, and otherwise the first one is reported. -/
theorem search_finds_first_bad :
    (∀ (tree : Node) (flagged : Node → Bool), ∃ places found,
      (∀ visited result, Cursor.Walks Node.isBad flagged (.atRoot tree) visited result ↔
        visited = places ∧ result = found) ∧
      (Node.Flags flagged tree → found = tree.preorder.find? Node.isBad)) ∧
    (∀ tree : Node, Node.Flags Node.hasError tree ∧
      Cursor.firstError tree = tree.preorder.find? Node.isBad ∧
      (Cursor.firstError tree = none ↔ ∀ n ∈ tree.preorder, n.isBad = false)) ∧
    ∀ (d : Dialect) (text : String),
      (∀ tree, d.parse text = .ok tree ↔
        tree = Tree.ofText d text ∧ ∀ n ∈ tree.preorder, n.isBad = false) ∧
      ∀ before bad after, (Tree.ofText d text).preorder = before ++ bad :: after →
        bad.isBad = true → (∀ n ∈ before, n.isBad = false) →
        d.parse text = .error (.parse ⟨"<source>"⟩ ((pointIn text.toList bad.start).row + 1)
          ((pointIn text.toList bad.start).column + 1) (complaint bad)) := by
  refine ⟨?_, ?_, ?_⟩
  · intro tree flagged
    obtain ⟨places, found, hwalks⟩ := Cursor.exists_walks Node.isBad flagged (.atRoot tree)
    refine ⟨places, found, fun visited result => ⟨hwalks.unique, ?_⟩, hwalks.find?_of_flags⟩
    rintro ⟨rfl, rfl⟩
    exact hwalks
  · intro tree
    refine ⟨Node.flags_hasError tree, Cursor.firstError_eq tree, ?_⟩
    rw [Cursor.firstError_eq, List.find?_eq_none]
    simp
  · intro d text
    exact ⟨fun tree => parse_eq_ok_iff, fun before bad after => parse_eq_error⟩

/-- A tree with something out of place below its second child, and more of it behind. -/
def flawedTree : Node :=
  .mk (.named .program) none 0 8
    [.mk (.named .identifier) none 0 1 [],
      .mk (.named .arguments) none 1 4 [.mk .token none 1 2 [], .mk (.missing ")") none 4 4 []],
      .mk .error none 5 8 []]

theorem search_finds_first_bad_unclosed :
    Node.Flags Node.hasError flawedTree ∧
      (∃ places, Cursor.Walks Node.isBad Node.hasError (.atRoot flawedTree) places
        (some (.mk (.missing ")") none 4 4 []))) ∧
      ∃ root bad, (Tree.ofText .typescript "f(1;\n").preorder = [root, bad] ∧ bad.isBad = true ∧
        Dialect.parse .typescript "f(1;\n" =
          .error (.parse ⟨"<source>"⟩ ((pointIn "f(1;\n".toList bad.start).row + 1)
            ((pointIn "f(1;\n".toList bad.start).column + 1) (complaint bad)) := by
  obtain ⟨hsearch, hflags, hparse⟩ := search_finds_first_bad
  obtain ⟨places, found, hwalks, hfound⟩ := hsearch flawedTree Node.hasError
  obtain ⟨hflawed, -⟩ := hflags flawedTree
  refine ⟨hflawed, ⟨places, (hwalks _ _).mpr ⟨rfl, ?_⟩⟩, ?_⟩
  · rw [hfound hflawed]
    rfl
  · have hread : (readProgram .typescript "f(1;\n".toList).isOk = false := by decide +kernel
    obtain ⟨reach, hreach⟩ : ∃ m, readProgram .typescript "f(1;\n".toList = .error m := by
      cases h : readProgram .typescript "f(1;\n".toList with
      | ok ns =>
        rw [h] at hread
        cases hread
      | error m => exact ⟨m, rfl⟩
    have hpreorder : ∃ root flaw,
        (Tree.ofText .typescript "f(1;\n").preorder = [root, Tree.flawNode flaw] ∧
          root.isBad = false := by
      rw [Tree.ofText, Tree.ofChars, hreach]
      exact ⟨_, _, rfl, rfl⟩
    obtain ⟨root, flaw, hpreorder, hroot⟩ := hpreorder
    have hbad : (Tree.flawNode flaw).isBad = true := by
      obtain ⟨offset, _ | spelling⟩ := flaw
      · rfl
      · rfl
    refine ⟨root, _, hpreorder, hbad, ?_⟩
    exact (hparse .typescript "f(1;\n").2 [root] _ [] hpreorder hbad (by simpa using hroot)

end Dialect

end Retarget.Syntax
