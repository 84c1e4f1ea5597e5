import Retarget.Proofs.Relocation.Considering
import Retarget.Proofs.Relocation.Editing
import Retarget.Proofs.Syntax.Programs

/-!
# Normalizing a fragment

A fragment is read in parentheses.  Its path literals are stretches of its text that do not
overlap, so the edits that relocation finds can be made one after the other, and each
replaces one literal.  `relocates_of_parse` says what becomes of a path literal that this
reading shows.
-/

namespace Retarget.Relocation

open Syntax
open Place (bytes)

variable {keys : List String} {old new : Path} {cs text : List Char} {tree k v w : Node}
  {q : Char} {literal : List Char} {p : Progress} {f : Fragment}

/-- A quoted literal and another one that reaches the same place of the workspace from another
host. -/
def Respelled (old new : Path) (x y : List Char) : Prop :=
  ∃ q literal moved, (q = '\'' ∨ q = '"') ∧ x = q :: literal ++ [q] ∧ y = q :: moved ++ [q] ∧
    (new.join ⟨String.ofList moved⟩).resolve = (old.join ⟨String.ofList literal⟩).resolve ∧
      (old.join ⟨String.ofList literal⟩).resolve.isSome

theorem eq_of_splitLiteral {x : List Char} (h : splitLiteral x = some (q, literal)) :
    x = q :: literal ++ [q] ∧ (q = '\'' ∨ q = '"') := by
  unfold splitLiteral at h
  cases x with
  | nil => cases h
  | cons c r =>
    dsimp only at h
    split at h
    · next hquote =>
      obtain ⟨rfl, rfl⟩ := Prod.mk.inj (Option.some.inj h)
      rw [Bool.and_eq_true] at hquote
      obtain ⟨hc, hlast⟩ := hquote
      obtain ⟨inner, rfl⟩ := List.getLast?_eq_some_iff.mp (by simpa using hlast)
      refine ⟨?_, by simpa using hc⟩
      rw [List.dropLast_concat, List.cons_append]
    · cases h

theorem textIn_toList {a b c : List Char} {n : Node} (hcs : cs = a ++ b ++ c)
    (hstart : n.start = bytes a) (hstop : n.stop = bytes a + bytes b) :
    (n.textIn cs).toList = b := by
  rw [Node.textIn, slice, String.toList_ofList, hcs, sliceChars_middle a b c hstart hstop]

/-- A quoted literal is not empty. -/
theorem start_lt_stop (hv : v.Placed cs)
    (h : splitLiteral (v.textIn cs).toList = some (q, literal)) : v.start < v.stop := by
  obtain ⟨a, b, c, hcs, hstart, hstop⟩ := hv.start_cut.between hv.stop_cut hv.start_le_stop
  rw [textIn_toList hcs hstart hstop] at h
  have hb := (eq_of_splitLiteral h).1
  have hq := q.utf8Size_pos
  rw [hb, List.cons_append, bytes_cons] at hstop
  omega

theorem bytes_parenthesis (a : List Char) : bytes ('(' :: a) = bytes a + 1 := by
  rw [bytes_cons, Nat.add_comm]
  rfl

/-- A quoted literal of a text in parentheses is a stretch of the text. -/
theorem exists_stretch (hv : v.Placed ('(' :: text ++ [')']))
    (h : splitLiteral (v.textIn ('(' :: text ++ [')'])).toList = some (q, literal)) :
    ∃ a c, text = a ++ (q :: literal ++ [q]) ++ c ∧ v.start = bytes a + 1 ∧
      v.stop = bytes a + 1 + bytes (q :: literal ++ [q]) := by
  obtain ⟨x, b, y, hcs, hstart, hstop⟩ := hv.start_cut.between hv.stop_cut hv.start_le_stop
  rw [textIn_toList hcs hstart hstop] at h
  obtain ⟨rfl, hq⟩ := eq_of_splitLiteral h
  -- a quote is no parenthesis, so both parentheses stand outside
  cases x with
  | nil =>
    have hhead := (List.cons.inj hcs).1
    rcases hq with rfl | rfl
    · cases hhead
    · cases hhead
  | cons c a =>
    obtain ⟨rfl, -⟩ := List.cons.inj hcs
    have hrest : text ++ [')'] = a ++ (q :: literal ++ [q]) ++ y := (List.cons.inj hcs).2
    have hone := bytes_parenthesis a
    rcases List.eq_nil_or_concat y with rfl | ⟨c, last, rfl⟩
    · rw [List.append_nil, ← List.append_assoc] at hrest
      have hlast := (List.append_inj' hrest rfl).2
      rcases hq with rfl | rfl
      · cases hlast
      · cases hlast
    · rw [List.concat_eq_append, ← List.append_assoc] at hrest
      obtain ⟨htext, -⟩ := List.append_inj' hrest rfl
      exact ⟨a, c, htext, hone ▸ hstart, hone ▸ hstop⟩

theorem Valued.string (h : Valued tree k v) : v ∈ tree.preorder ∧ v.kind = .named .string := by
  obtain ⟨pair, hpair, -, before, rest, hchildren, -, -, holder, hholder, -, his, hv⟩ := h
  have hmem : holder ∈ tree.preorder := by
    apply Node.mem_preorder_of_child hpair
    rw [hchildren]
    exact List.mem_append_right _ (List.mem_cons_of_mem _ hholder)
  refine ⟨?_, by simpa [Node.is] using his⟩
  rcases hv with rfl | ⟨-, hv⟩
  · exact hmem
  · exact Node.mem_preorder_of_child hmem hv

/-! ## The edits that were found -/

section Found

variable {seen : List Match} {e g : Edit}

/-- An edit that was found replaces a quoted literal. -/
theorem Considered.edit_spec (htree : tree.Placed ('(' :: text ++ [')']))
    (h : Considered keys old new ('(' :: text ++ [')']) tree seen p) (he : e ∈ p.edits) :
    Edits text e ∧ e.start < e.stop ∧
      Respelled old new (sliceChars text e.start e.stop) e.text.toList := by
  obtain ⟨k, v, q, literal, moved, hv, hliteral, hmoved, rfl⟩ := h.edits e he
  obtain ⟨a, c, htext, hstart, hstop⟩ :=
    exists_stretch (htree.below hv.string.1).1 hliteral.quoted
  have hfrom : v.start - 1 = bytes a := by omega
  have hto : v.stop - 1 = bytes a + bytes (q :: literal ++ [q]) := by omega
  have hlong : 0 < bytes (q :: literal ++ [q]) := by
    have hq := q.utf8Size_pos
    rw [List.cons_append, bytes_cons]
    omega
  refine ⟨⟨?_, ?_, ?_⟩, ?_, ?_⟩
  · exact ⟨a, _, by rw [htext, List.append_assoc], hfrom.symm⟩
  · exact ⟨_, c, htext, by rw [bytes_append]; exact hto.symm⟩
  · show v.start - 1 ≤ v.stop - 1
    omega
  · show v.start - 1 < v.stop - 1
    omega
  · show Respelled old new (sliceChars text (v.start - 1) (v.stop - 1)) _
    rw [htext, sliceChars_middle a _ c hfrom hto]
    have hplace := Path.resolve_rebase hmoved
    refine ⟨q, literal, moved.toList, (eq_of_splitLiteral hliteral.quoted).2, rfl, ?_, ?_, ?_⟩
    · simp [respell]
    · simpa using hplace.1
    · exact hplace.2

/-- Of two edits that were found one stands behind the other, if they are not the same. -/
theorem Considered.edits_apart (htree : tree.Placed ('(' :: text ++ [')']))
    (h : Considered keys old new ('(' :: text ++ [')']) tree seen p) (he : e ∈ p.edits)
    (hg : g ∈ p.edits) (hne : e.start ≠ g.start) : e.stop ≤ g.start ∨ g.stop ≤ e.start := by
  obtain ⟨k, v, q, literal, moved, hv, -, -, rfl⟩ := h.edits e he
  obtain ⟨k', w, q', literal', moved', hw, -, -, rfl⟩ := h.edits g hg
  have hapart := htree.strings_apart hv.string.1 hw.string.1 hv.string.2 hw.string.2
  unfold Node.Apart at hapart
  unfold respell at hne ⊢
  dsimp only at hne ⊢
  omega

/-- Made from the end of the text to its beginning, every edit stands before those that
were made. -/
theorem Considered.descending (htree : tree.Placed ('(' :: text ++ [')']))
    (h : Considered keys old new ('(' :: text ++ [')']) tree seen p) :
    Descending (p.edits.mergeSort fun a b => b.start ≤ a.start) := by
  have hsorted : (p.edits.mergeSort fun a b => b.start ≤ a.start).Pairwise
      fun a b => decide (b.start ≤ a.start) = true :=
    List.pairwise_mergeSort (by intro a b c; simp; omega) (by intro a b; simp; omega) p.edits
  have hdistinct : (p.edits.mergeSort fun a b => b.start ≤ a.start).Pairwise
      fun e f => e.start ≠ f.start :=
    (List.mergeSort_perm _ _).symm.pairwise h.distinct fun h => Ne.symm h
  have hboth := List.Pairwise.and hsorted hdistinct
  refine List.Pairwise.imp_of_mem ?_ hboth
  rintro e g he hg ⟨hle, hne⟩
  have he := List.mem_mergeSort.mp he
  have hg := List.mem_mergeSort.mp hg
  have hpos := (h.edit_spec htree he).2.1
  rcases h.edits_apart htree he hg hne with hbefore | hbehind
  · simp at hle
    omega
  · exact hbehind

end Found

/-! ## What becomes of a literal -/

/-- What becomes of a quoted literal at a byte of a fragment.  Either it leaves the
workspace and is on the list of those left alone, or what stands in its place reaches the
same place of the workspace from the new host; other literals around it may have been
spelled anew, too. -/
def Relocates (old new : Path) (f : Fragment) (n : Normalized) (at_ : Nat) (q : Char)
    (literal : List Char) : Prop :=
  (String.ofList literal ∈ n.unresolved ∧ (old.join ⟨String.ofList literal⟩).resolve = none) ∨
    ∃ before after before' moved after', f.text.toList = before ++ (q :: literal ++ [q]) ++ after ∧
      bytes before = at_ ∧ n.fragment.text.toList = before' ++ (q :: moved ++ [q]) ++ after' ∧
      Rewritten (Respelled old new) before before' ∧ Rewritten (Respelled old new) after after' ∧
      (new.join ⟨String.ofList moved⟩).resolve = (old.join ⟨String.ofList literal⟩).resolve ∧
      (old.join ⟨String.ofList literal⟩).resolve.isSome

theorem resolve_eq_none {literal : String} (h : Path.rebase literal old new = none)
    (hnew : new.resolve.isSome) : (old.join ⟨literal⟩).resolve = none := by
  unfold Path.rebase at h
  split at h
  · cases h
  · next hneither =>
    obtain ⟨base, hbase⟩ := Option.isSome_iff_exists.mp hnew
    cases htarget : (old.join ⟨literal⟩).resolve with
    | none => rfl
    | some target => exact absurd hbase (hneither target base htarget)

/-- What relocation finds in a tree. -/
def found (keys : List String) (old new : Path) (cs : List Char) (tree : Node) : Progress :=
  (Query.runAll [⟨[stringPair]⟩, ⟨[arrayPair]⟩] [] cs tree).foldl (consider keys old new cs)
    ⟨[], [], []⟩

theorem considered_found (keys : List String) (old new : Path) (cs : List Char) (tree : Node) :
    Considered keys old new cs tree (Query.runAll [⟨[stringPair]⟩, ⟨[arrayPair]⟩] [] cs tree)
      (found keys old new cs tree) := by
  have hstart : Considered keys old new cs tree [] ⟨[], [], []⟩ :=
    ⟨by simp, List.Pairwise.nil, by simp⟩
  refine hstart.foldl fun m hm => ?_
  obtain ⟨k, v, hv, hcaptures⟩ := mem_found.mp ⟨m, hm, rfl⟩
  exact ⟨k, v, hv, hcaptures⟩

theorem normalize_of_parse
    (htree : Dialect.typescript.parseChars ('(' :: f.text.toList ++ [')']) = .ok tree)
    (hf : f.isEmpty = false) (hkeys : keys.isEmpty = false) :
    normalize keys f old new =
      ⟨f.withText (applyEdits f.text (found keys old new ('(' :: f.text.toList ++ [')']) tree).edits),
        (found keys old new ('(' :: f.text.toList ++ [')']) tree).replaced,
        (found keys old new ('(' :: f.text.toList ++ [')']) tree).unresolved⟩ := by
  unfold normalize
  rw [hf, hkeys, Bool.or_false, if_neg Bool.false_ne_true]
  dsimp only
  rw [htree]
  rfl

/-- A fragment that cannot be read in parentheses stays as it is. -/
theorem normalize_of_error {failure : Failure}
    (h : Dialect.typescript.parseChars ('(' :: f.text.toList ++ [')']) = .error failure) :
    normalize keys f old new = ⟨f, [], []⟩ := by
  unfold normalize
  dsimp only
  rw [h]
  split
  · rfl
  · rfl

/-- Quoted literals that start together are the same. -/
theorem quoted_inj {q' : Char} {literal' : List Char} (htree : tree.Placed ('(' :: text ++ [')']))
    (hv : Valued tree k v) {k' : Node} (hw : Valued tree k' w)
    (hq : splitLiteral (v.textIn ('(' :: text ++ [')'])).toList = some (q, literal))
    (hq' : splitLiteral (w.textIn ('(' :: text ++ [')'])).toList = some (q', literal'))
    (hstart : w.start - 1 = v.start - 1) : q' = q ∧ literal' = literal := by
  have hapart := htree.strings_apart hw.string.1 hv.string.1 hw.string.2 hv.string.2
  obtain ⟨a, c, -, hvstart, hvstop⟩ := exists_stretch (htree.below hv.string.1).1 hq
  obtain ⟨b, d, -, hwstart, hwstop⟩ := exists_stretch (htree.below hw.string.1).1 hq'
  rw [List.cons_append, bytes_cons] at hvstop hwstop
  have hqpos := q.utf8Size_pos
  have hqpos' := q'.utf8Size_pos
  have hsame : w.start = v.start ∧ w.stop = v.stop := by
    unfold Node.Apart at hapart
    omega
  have htext : w.textIn ('(' :: text ++ [')']) = v.textIn ('(' :: text ++ [')']) := by
    rw [Node.textIn, Node.textIn, hsame.1, hsame.2]
  rw [htext, hq] at hq'
  obtain ⟨hquote, hinner⟩ := Prod.mk.inj (Option.some.inj hq')
  exact ⟨hquote.symm, hinner.symm⟩

/-- What the edits that were found make of a text around one of its quoted literals. -/
theorem Considered.around {seen : List Match} {a c : List Char}
    (htree : tree.Placed ('(' :: text ++ [')']))
    (h : Considered keys old new ('(' :: text ++ [')']) tree seen p) (hv : Valued tree k v)
    (htext : text = a ++ (q :: literal ++ [q]) ++ c) (hstart : v.start = bytes a + 1)
    (hstop : v.stop = bytes a + 1 + bytes (q :: literal ++ [q])) :
    ∃ a' b' c',
      (p.edits.mergeSort fun a b => b.start ≤ a.start).foldl applyEdit text = a' ++ b' ++ c' ∧
      Rewritten (Respelled old new) a a' ∧ Rewritten (Respelled old new) c c' ∧
      ((∃ e ∈ p.edits, e.start = bytes a ∧ b' = e.text.toList) ∨
        (∀ e ∈ p.edits, e.start ≠ bytes a) ∧ b' = q :: literal ++ [q]) := by
  have hedits : ∀ e ∈ p.edits.mergeSort fun a b => b.start ≤ a.start,
      Edits text e ∧ e.start < e.stop ∧
        Respelled old new (sliceChars text e.start e.stop) e.text.toList :=
    fun e he => h.edit_spec htree (List.mem_mergeSort.mp he)
  have hapart : ∀ e ∈ p.edits.mergeSort fun a b => b.start ≤ a.start,
      e.start = bytes a ∧ e.stop = bytes (a ++ (q :: literal ++ [q])) ∨
        e.stop ≤ bytes a ∨ bytes (a ++ (q :: literal ++ [q])) ≤ e.start := by
    intro e he
    obtain ⟨k', w, q', literal', moved, hw, -, -, rfl⟩ := h.edits e (List.mem_mergeSort.mp he)
    have hapart := htree.strings_apart hw.string.1 hv.string.1 hw.string.2 hv.string.2
    unfold Node.Apart at hapart
    unfold respell
    rw [bytes_append]
    dsimp only
    omega
  rw [htext] at hedits
  obtain ⟨a', b', c', hfold, hbefore, hafter, hat⟩ :=
    exists_of_descending hedits (h.descending htree) (by simp) hapart
  refine ⟨a', b', c', ?_, hbefore, hafter, ?_⟩
  · rw [htext]
    exact hfold
  · rcases hat with ⟨e, he, hstart, -, hb⟩ | ⟨hnone, hb⟩
    · exact .inl ⟨e, List.mem_mergeSort.mp he, hstart, hb⟩
    · exact .inr ⟨fun e he => hnone e (List.mem_mergeSort.mpr he), hb⟩

/-- Every path literal that the reading in parentheses shows is relocated. -/
theorem relocates_of_parse
    (htree : Dialect.typescript.parseChars ('(' :: f.text.toList ++ [')']) = .ok tree)
    (hnew : new.resolve.isSome) (hv : Valued tree k v)
    (hliteral : PathLiteral keys ('(' :: f.text.toList ++ [')']) k v q literal) :
    Relocates old new f (normalize keys f old new) (v.start - 1) q literal := by
  have hplaced := placed_of_parseChars htree
  have hfound := considered_found keys old new ('(' :: f.text.toList ++ [')']) tree
  obtain ⟨a, c, htext, hstart, hstop⟩ :=
    exists_stretch (hplaced.below hv.string.1).1 hliteral.quoted
  have hf : f.isEmpty = false := by
    refine decide_eq_false fun hempty => ?_
    rw [hempty] at htext
    simp at htext
  have hkeys : keys.isEmpty = false := by
    cases keys with
    | nil => cases hliteral.listed
    | cons key keys => rfl
  have hat : v.start - 1 = bytes a := by omega
  rw [normalize_of_parse htree hf hkeys, hat]
  obtain ⟨a', b', c', happly, hbefore, hafter, hb⟩ :=
    hfound.around hplaced hv htext hstart hstop
  rw [← String.toList_ofList (l := List.foldl _ _ _), ← applyEdits] at happly
  -- what stands in the place of the literal decides
  have hplace (moved : List Char) (hb : b' = q :: moved ++ [q])
      (hsame : (new.join ⟨String.ofList moved⟩).resolve = (old.join ⟨String.ofList literal⟩).resolve ∧
        (old.join ⟨String.ofList literal⟩).resolve.isSome) :
      Relocates old new f
        ⟨f.withText (applyEdits f.text (found keys old new ('(' :: f.text.toList ++ [')']) tree).edits),
        (found keys old new ('(' :: f.text.toList ++ [')']) tree).replaced,
        (found keys old new ('(' :: f.text.toList ++ [')']) tree).unresolved⟩ (bytes a) q literal :=
    .inr ⟨a, c, a', moved, c', htext, rfl, hb ▸ happly, hbefore, hafter, hsame⟩
  rcases hb with ⟨e, he, hestart, hb⟩ | ⟨hnone, hb⟩
  · obtain ⟨k', w, q', literal', moved, hw, hliteral', hmoved, rfl⟩ := hfound.edits e he
    obtain ⟨rfl, rfl⟩ := quoted_inj hplaced hv hw hliteral.quoted hliteral'.quoted
      (hestart.trans hat.symm)
    refine hplace moved.toList (by simp [hb, respell]) ?_
    rw [String.ofList_toList]
    exact Path.resolve_rebase hmoved
  · obtain ⟨m, hm, hcaptures⟩ := mem_found.mpr ⟨k, v, hv, rfl⟩
    rcases hfound.settled m hm k v q literal hcaptures hliteral with
      ⟨e, he, hestart⟩ | ⟨hnowhere, hmem⟩ | hsame
    · exact absurd (hestart.trans hat) (hnone e he)
    · exact .inl ⟨hmem, resolve_eq_none hnowhere hnew⟩
    · exact hplace literal hb (Path.resolve_rebase hsame)

end Retarget.Relocation
