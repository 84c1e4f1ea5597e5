import Retarget.Proofs.Syntax.Bytes
import Retarget.Relocation.Fragment

/-!
# Several edits of one text

Edits of stretches that do not overlap are made from the end of the text to its
beginning, so that every edit finds its stretch where it was.  `exists_of_descending` says
what they come to around any stretch that they do not cut: what stands before it and
behind it is rewritten, and the stretch itself is replaced if it has an edit.
-/

namespace Retarget.Relocation

open Syntax
open Place (bytes)

/-- A text in which some stretches were replaced by related ones. -/
inductive Rewritten (R : List Char → List Char → Prop) : List Char → List Char → Prop
  | nil : Rewritten R [] []
  | keep (c : Char) {a b : List Char} (rest : Rewritten R a b) : Rewritten R (c :: a) (c :: b)
  | replace {x y a b : List Char} (related : R x y) (rest : Rewritten R a b) :
      Rewritten R (x ++ a) (y ++ b)

variable {R : List Char → List Char → Prop} {a b c d cs : List Char} {e : Edit}
  {edits : List Edit}

theorem Rewritten.refl (R : List Char → List Char → Prop) (a : List Char) : Rewritten R a a := by
  induction a with
  | nil => exact .nil
  | cons c a ih => exact .keep c ih

theorem Rewritten.append (h : Rewritten R a b) (h' : Rewritten R c d) :
    Rewritten R (a ++ c) (b ++ d) := by
  induction h with
  | nil => exact h'
  | keep c _ ih => exact .keep c ih
  | replace related _ ih =>
    rw [List.append_assoc, List.append_assoc]
    exact .replace related ih

/-- An edit of a stretch of a text. -/
structure Edits (cs : List Char) (e : Edit) : Prop where
  start : Cut cs e.start
  stop : Cut cs e.stop
  le : e.start ≤ e.stop

theorem applyEdit_middle (a b c : List Char) (hstart : e.start = bytes a)
    (hstop : e.stop = bytes a + bytes b) :
    applyEdit (a ++ b ++ c) e = a ++ e.text.toList ++ c := by
  unfold applyEdit
  have hhead := sliceChars_head a (b ++ c)
  have htail := sliceChars_tail (a ++ b) c
  rw [← List.append_assoc] at hhead
  rw [bytes_append a b] at htail
  rw [hstart, hstop, htail, hhead]

/-- The parts of a text around an edit. -/
theorem Edits.parts (h : Edits cs e) : ∃ a b c, cs = a ++ b ++ c ∧ e.start = bytes a ∧
    e.stop = bytes a + bytes b ∧ applyEdit cs e = a ++ e.text.toList ++ c := by
  obtain ⟨a, b, c, rfl, hstart, hstop⟩ := h.start.between h.stop h.le
  exact ⟨a, b, c, rfl, hstart, hstop, applyEdit_middle a b c hstart hstop⟩

/-- A cut of a text that does not lie behind a part of it is a cut of that part. -/
theorem cut_of_append {n : Nat} (h : Cut (a ++ b) n) (hle : n ≤ bytes a) : Cut a n := by
  obtain ⟨x, y, hxy, rfl⟩ := h
  obtain ⟨z, rfl, -⟩ := exists_append_of_bytes_le hxy.symm hle
  exact ⟨x, z, rfl, rfl⟩

theorem Edits.of_append (h : Edits (a ++ b) e) (hle : e.stop ≤ bytes a) : Edits a e :=
  ⟨cut_of_append h.start (Nat.le_trans h.le hle), cut_of_append h.stop hle, h.le⟩

/-- Edits of which each one stands before those that were made. -/
def Descending (edits : List Edit) : Prop :=
  edits.Pairwise fun e f => f.stop ≤ e.start

/-- The edits that follow an edit fit what stands before it. -/
theorem fit_before {x y z : List Char} (hstart : e.start = bytes x)
    (hfit : ∀ f ∈ edits, Edits (x ++ y ++ z) f) (hlater : ∀ f ∈ edits, f.stop ≤ e.start) :
    ∀ f ∈ edits, Edits x f ∧ f.stop ≤ bytes x := by
  intro f hf
  have hle : f.stop ≤ bytes x := hstart ▸ hlater f hf
  have hfits := hfit f hf
  rw [List.append_assoc] at hfits
  exact ⟨hfits.of_append hle, hle⟩

/-- Edits in a part of a text leave what is behind it alone. -/
theorem foldl_applyEdit_append (hedits : ∀ e ∈ edits, Edits a e ∧ e.stop ≤ bytes a)
    (hdesc : Descending edits) (b : List Char) :
    edits.foldl applyEdit (a ++ b) = edits.foldl applyEdit a ++ b := by
  induction edits generalizing a b with
  | nil => rfl
  | cons e edits ih =>
    obtain ⟨hlater, hdesc⟩ := List.pairwise_cons.mp hdesc
    obtain ⟨x, y, z, rfl, hstart, hstop, happly⟩ := (hedits e List.mem_cons_self).1.parts
    -- the edits that follow stand before this one
    have hbefore := fit_before hstart
      (fun f hf => (hedits f (List.mem_cons_of_mem _ hf)).1) hlater
    have hwhole := applyEdit_middle x y (z ++ b) hstart hstop
    rw [← List.append_assoc] at hwhole
    rw [List.foldl_cons, List.foldl_cons, happly, hwhole, List.append_assoc x,
      List.append_assoc x, ih hbefore hdesc, ih hbefore hdesc]
    simp only [List.append_assoc]

/-- Edits behind a part of a text leave that part alone and rewrite the rest. -/
theorem foldl_applyEdit_behind
    (hedits : ∀ e ∈ edits, Edits (a ++ b) e ∧ bytes a ≤ e.start ∧
      R (sliceChars (a ++ b) e.start e.stop) e.text.toList)
    (hdesc : Descending edits) :
    ∃ b', edits.foldl applyEdit (a ++ b) = a ++ b' ∧ Rewritten R b b' := by
  induction edits generalizing b with
  | nil => exact ⟨b, rfl, .refl R b⟩
  | cons e edits ih =>
    obtain ⟨hlater, hdesc⟩ := List.pairwise_cons.mp hdesc
    obtain ⟨hfits, hle, hrelated⟩ := hedits e List.mem_cons_self
    obtain ⟨x, y, z, hparts, hstart, hstop, happly⟩ := hfits.parts
    obtain ⟨w, rfl, hb⟩ := exists_append_of_bytes_le (hparts.trans (List.append_assoc x y z))
      (hstart ▸ hle)
    rw [hparts, sliceChars_middle _ y z hstart hstop] at hrelated
    have hbefore := fit_before hstart
      (fun f hf => hparts ▸ (hedits f (List.mem_cons_of_mem _ hf)).1) hlater
    -- they replace what they replaced before this one was made
    have hsame : ∀ f ∈ edits, Edits (a ++ w) f ∧ bytes a ≤ f.start ∧
        R (sliceChars (a ++ w) f.start f.stop) f.text.toList := by
      intro f hf
      obtain ⟨-, hle, hrelated⟩ := hedits f (List.mem_cons_of_mem _ hf)
      have hfits := (hbefore f hf).1
      refine ⟨hfits, hle, ?_⟩
      obtain ⟨x', y', z', hparts', hstart', hstop', -⟩ := hfits.parts
      have hwhole : a ++ (w ++ (y ++ z)) = x' ++ y' ++ (z' ++ (y ++ z)) := by
        rw [← List.append_assoc, hparts', List.append_assoc (x' ++ y')]
      rw [hb, hwhole, sliceChars_middle x' y' _ hstart' hstop'] at hrelated
      rwa [hparts', sliceChars_middle x' y' z' hstart' hstop']
    obtain ⟨w', hw', hrewritten⟩ := ih hsame hdesc
    refine ⟨w' ++ (e.text.toList ++ z), ?_, ?_⟩
    · rw [List.foldl_cons, happly, List.append_assoc, foldl_applyEdit_append hbefore hdesc, hw',
        List.append_assoc]
    · rw [hb]
      exact hrewritten.append (.replace hrelated (.refl R z))

/-- Edits in order are those behind a stretch, the edit of the stretch if there is one, and
those before it. -/
theorem exists_split {i j : Nat} (hij : i < j) (hpos : ∀ e ∈ edits, e.start < e.stop)
    (hdesc : Descending edits)
    (hapart : ∀ e ∈ edits, e.start = i ∧ e.stop = j ∨ e.stop ≤ i ∨ j ≤ e.start) :
    ∃ behind at_ before, edits = behind ++ at_ ++ before ∧
      (∀ e ∈ behind, j ≤ e.start) ∧ (∀ e ∈ before, e.stop ≤ i) ∧
      ((∃ e, at_ = [e] ∧ e.start = i ∧ e.stop = j) ∨
        at_ = [] ∧ ∀ e ∈ edits, e.start ≠ i) := by
  induction edits with
  | nil => exact ⟨[], [], [], rfl, by simp, by simp, .inr ⟨rfl, by simp⟩⟩
  | cons e edits ih =>
    obtain ⟨hlater, hdesc⟩ := List.pairwise_cons.mp hdesc
    have hpos' := hpos e List.mem_cons_self
    rcases hapart e List.mem_cons_self with ⟨hi, hj⟩ | hbefore | hbehind
    · refine ⟨[], [e], edits, rfl, by simp, ?_, .inl ⟨e, rfl, hi, hj⟩⟩
      intro f hf
      exact hi ▸ hlater f hf
    · -- all that follow stand before the stretch, too
      have hall : ∀ f ∈ e :: edits, f.stop ≤ i := by
        intro f hf
        rcases List.mem_cons.mp hf with rfl | hf
        · exact hbefore
        · have := hlater f hf
          omega
      refine ⟨[], [], e :: edits, rfl, by simp, hall, .inr ⟨rfl, ?_⟩⟩
      intro f hf heq
      have := hall f hf
      have := hpos f hf
      omega
    · obtain ⟨behind, at_, before, rfl, hb, hbf, hat⟩ :=
        ih (fun f hf => hpos f (List.mem_cons_of_mem _ hf)) hdesc
          fun f hf => hapart f (List.mem_cons_of_mem _ hf)
      refine ⟨e :: behind, at_, before, rfl, ?_, hbf, hat.imp_right ?_⟩
      · intro f hf
        rcases List.mem_cons.mp hf with rfl | hf
        · exact hbehind
        · exact hb f hf
      · rintro ⟨hnil, hne⟩
        refine ⟨hnil, ?_⟩
        intro f hf
        rcases List.mem_cons.mp hf with rfl | hf
        · omega
        · exact hne f hf

/-- What edits make of a text around a stretch that they do not cut. -/
theorem exists_of_descending (hedits : ∀ e ∈ edits, Edits (a ++ b ++ c) e ∧ e.start < e.stop ∧
      R (sliceChars (a ++ b ++ c) e.start e.stop) e.text.toList)
    (hdesc : Descending edits) (hb : b ≠ [])
    (hapart : ∀ e ∈ edits, e.start = bytes a ∧ e.stop = bytes (a ++ b) ∨
      e.stop ≤ bytes a ∨ bytes (a ++ b) ≤ e.start) :
    ∃ a' b' c', edits.foldl applyEdit (a ++ b ++ c) = a' ++ b' ++ c' ∧
      Rewritten R a a' ∧ Rewritten R c c' ∧
      ((∃ e ∈ edits, e.start = bytes a ∧ e.stop = bytes (a ++ b) ∧ b' = e.text.toList) ∨
        (∀ e ∈ edits, e.start ≠ bytes a) ∧ b' = b) := by
  have hlt : bytes a < bytes (a ++ b) := by
    rw [bytes_append]
    have := mt eq_nil_of_bytes_eq_zero hb
    omega
  obtain ⟨behind, at_, before, rfl, hbehind, hbefore, hat⟩ :=
    exists_split hlt (fun e he => (hedits e he).2.1) hdesc hapart
  have hmem {e : Edit} (he : e ∈ behind ∨ e ∈ at_ ∨ e ∈ before) : e ∈ behind ++ at_ ++ before := by
    simpa [or_assoc] using he
  obtain ⟨hdesc', hbeforeDesc, -⟩ := List.pairwise_append.mp hdesc
  obtain ⟨hbehindDesc, -, -⟩ := List.pairwise_append.mp hdesc'
  -- what stands behind the stretch
  obtain ⟨c', hc', hrewritten⟩ := foldl_applyEdit_behind (a := a ++ b) (b := c) (R := R)
    (fun e he => ⟨(hedits e (hmem (.inl he))).1, hbehind e he, (hedits e (hmem (.inl he))).2.2⟩)
    hbehindDesc
  -- what stands before it
  have hfits : ∀ e ∈ before, Edits a e ∧ e.stop ≤ bytes a := by
    intro e he
    have hfits := (hedits e (hmem (.inr (.inr he)))).1
    rw [List.append_assoc] at hfits
    exact ⟨hfits.of_append (hbefore e he), hbefore e he⟩
  have hsame : ∀ e ∈ before, Edits ([] ++ a) e ∧ bytes [] ≤ e.start ∧
      R (sliceChars ([] ++ a) e.start e.stop) e.text.toList := by
    intro e he
    obtain ⟨x, y, z, rfl, hstart, hstop, -⟩ := (hfits e he).1.parts
    have hrelated := (hedits e (hmem (.inr (.inr he)))).2.2
    rw [List.append_assoc (x ++ y ++ z), List.append_assoc (x ++ y),
      sliceChars_middle x y _ hstart hstop] at hrelated
    refine ⟨(hfits e he).1, Nat.zero_le _, ?_⟩
    rwa [List.nil_append, sliceChars_middle x y z hstart hstop]
  obtain ⟨a', ha', hrewritten'⟩ := foldl_applyEdit_behind (R := R) hsame hbeforeDesc
  rw [List.nil_append, List.nil_append] at ha'
  have hfold (b' : List Char) :
      before.foldl applyEdit (a ++ b' ++ c') = a' ++ b' ++ c' := by
    rw [List.append_assoc, foldl_applyEdit_append hfits hbeforeDesc, ha', List.append_assoc]
  rw [List.foldl_append, List.foldl_append, hc']
  rcases hat with ⟨e, rfl, hstart, hstop⟩ | ⟨rfl, hne⟩
  · refine ⟨a', e.text.toList, c', ?_, hrewritten', hrewritten,
      .inl ⟨e, hmem (.inr (.inl List.mem_cons_self)), hstart, hstop, rfl⟩⟩
    rw [bytes_append] at hstop
    rw [List.foldl_cons, List.foldl_nil, applyEdit_middle a b c' hstart hstop, hfold]
  · exact ⟨a', b, c', hfold b, hrewritten', hrewritten, .inr ⟨hne, rfl⟩⟩

end Retarget.Relocation
