import Retarget.Proofs.Relocation.Editing

/-!
# All edits at once

`substitute` makes edits all at once, wherever they stand in a list: the text of an edit comes
where its stretch starts, the characters of its stretch go, and all others stay.  Relocation
makes its edits one after the other in a text that changes under it.  From the end of the text
to its beginning that comes to the same (`foldl_applyEdit_eq`), and each edit still finds its
stretch in the text that those before it left (`allFit_of_descending`).
-/

namespace Retarget.Relocation

open Syntax
open Place (bytes)

variable {a b c cs : List Char} {e : Edit} {edits edits' : List Edit} {at_ : Nat}

/-- Replaces the stretches of all edits at once, in a text whose first byte has a number. -/
def substitute (edits : List Edit) : Nat → List Char → List Char
  | _, [] => []
  | at_, c :: r =>
    (edits.filter (·.start = at_)).flatMap (·.text.toList) ++
      (if edits.any fun e => e.start ≤ at_ && at_ < e.stop then [] else [c]) ++
      substitute edits (at_ + c.utf8Size) r

/-- Edits made in order, each of which finds its stretch in the text that is left to it. -/
def AllFit : List Char → List Edit → Prop
  | _, [] => True
  | cs, e :: edits => Edits cs e ∧ AllFit (applyEdit cs e) edits

theorem substitute_append (edits : List Edit) (at_ : Nat) (a b : List Char) :
    substitute edits at_ (a ++ b) =
      substitute edits at_ a ++ substitute edits (at_ + bytes a) b := by
  induction a generalizing at_ with
  | nil => simp [substitute, bytes_nil]
  | cons c a ih =>
    rw [List.cons_append, substitute, substitute, ih, bytes_cons, Nat.add_assoc]
    simp only [List.append_assoc]

/-- Characters that no edit touches stay. -/
theorem substitute_eq_self
    (h : ∀ e ∈ edits, e.start < e.stop ∧ (e.stop ≤ at_ ∨ at_ + bytes a ≤ e.start)) :
    substitute edits at_ a = a := by
  induction a generalizing at_ with
  | nil => rfl
  | cons c a ih =>
    have hc := c.utf8Size_pos
    rw [bytes_cons] at h
    have hnone : edits.filter (·.start = at_) = [] := by
      refine List.filter_eq_nil_iff.mpr fun e he => ?_
      have := h e he
      simp only [decide_eq_true_eq]
      omega
    have huncovered : (edits.any fun e => e.start ≤ at_ && at_ < e.stop) = false := by
      refine List.any_eq_false.mpr fun e he => ?_
      have := h e he
      simp only [Bool.and_eq_true, decide_eq_true_eq]
      omega
    rw [substitute, hnone, huncovered, ih fun e he => ?_]
    · rfl
    · have := h e he
      omega

/-- Characters of a stretch go. -/
theorem substitute_eq_nil (he : e ∈ edits) (hfrom : e.start < at_) (hto : at_ + bytes a ≤ e.stop)
    (h : ∀ f ∈ edits, f.start < at_) : substitute edits at_ a = [] := by
  induction a generalizing at_ with
  | nil => rfl
  | cons c a ih =>
    have hc := c.utf8Size_pos
    rw [bytes_cons] at hto
    have hnone : edits.filter (·.start = at_) = [] := by
      refine List.filter_eq_nil_iff.mpr fun f hf => ?_
      have := h f hf
      simp only [decide_eq_true_eq]
      omega
    have hcovered : (edits.any fun e => e.start ≤ at_ && at_ < e.stop) = true := by
      refine List.any_eq_true.mpr ⟨e, he, ?_⟩
      simp only [Bool.and_eq_true, decide_eq_true_eq]
      omega
    rw [substitute, hnone, hcovered, ih (by omega) (by omega) fun f hf => ?_]
    · rfl
    · have := h f hf
      omega

/-- An edit behind a part of a text does nothing to that part. -/
theorem substitute_cons_of_le (h : at_ + bytes a ≤ e.start) :
    substitute (e :: edits) at_ a = substitute edits at_ a := by
  induction a generalizing at_ with
  | nil => rfl
  | cons c a ih =>
    have hc := c.utf8Size_pos
    rw [bytes_cons] at h
    have hstart : ¬e.start = at_ := by omega
    have hcovered : ¬e.start ≤ at_ := by omega
    rw [substitute, substitute, ih (by omega)]
    simp [hstart, hcovered]

/-- The stretch of an edit behind all others becomes its text. -/
theorem substitute_cons_stretch (hstart : e.start = at_) (hstop : e.stop = at_ + bytes a)
    (hlt : e.start < e.stop) (h : ∀ f ∈ edits, f.start < at_) :
    substitute (e :: edits) at_ a = e.text.toList := by
  cases a with
  | nil =>
    rw [bytes_nil] at hstop
    omega
  | cons c a =>
    have hc := c.utf8Size_pos
    rw [bytes_cons] at hstop
    have honly : (e :: edits).filter (·.start = at_) = [e] := by
      rw [List.filter_cons_of_pos (by simp [hstart])]
      refine congrArg _ (List.filter_eq_nil_iff.mpr fun f hf => ?_)
      have := h f hf
      simp only [decide_eq_true_eq]
      omega
    have hcovered : ((e :: edits).any fun e => e.start ≤ at_ && at_ < e.stop) = true := by
      simp only [List.any_cons, Bool.or_eq_true, Bool.and_eq_true, decide_eq_true_eq]
      exact .inl ⟨by omega, by omega⟩
    have hgone : substitute (e :: edits) (at_ + c.utf8Size) a = [] := by
      refine substitute_eq_nil List.mem_cons_self (by omega) (by omega) fun f hf => ?_
      rcases List.mem_cons.mp hf with rfl | hf
      · omega
      · have := h f hf
        omega
    rw [substitute, honly, hcovered, hgone]
    simp

/-- The order of edits that start at different bytes does not matter. -/
theorem substitute_perm (h : edits.Perm edits')
    (hdistinct : edits.Pairwise fun e f => e.start ≠ f.start) (at_ : Nat) (a : List Char) :
    substitute edits at_ a = substitute edits' at_ a := by
  induction a generalizing at_ with
  | nil => rfl
  | cons c a ih =>
    have hstarts : edits.filter (·.start = at_) = edits'.filter (·.start = at_) := by
      have hperm := h.filter (·.start = at_)
      have hone : (edits.filter (·.start = at_)).Pairwise fun _ _ => False := by
        rw [List.pairwise_filter]
        refine hdistinct.imp ?_
        intro e f hne he hf
        simp only [decide_eq_true_eq] at he hf
        exact hne (he.trans hf.symm)
      generalize edits.filter (·.start = at_) = xs at hperm hone
      match xs, hone with
      | [], _ => exact (List.nil_perm.mp hperm).symm
      | [x], _ => exact List.singleton_perm.mp hperm
      | x :: y :: xs, hone => exact ((List.pairwise_cons.mp hone).1 y List.mem_cons_self).elim
    rw [substitute, substitute, hstarts, h.any_eq, ih]

/-! ## One after the other -/

theorem Edits.append (h : Edits a e) (b : List Char) : Edits (a ++ b) e := by
  obtain ⟨⟨x, y, hxy, hx⟩, ⟨z, w, hzw, hz⟩, hle⟩ := h
  exact ⟨⟨x, y ++ b, by rw [hxy, List.append_assoc], hx⟩,
    ⟨z, w ++ b, by rw [hzw, List.append_assoc], hz⟩, hle⟩

/-- From the end of a text to its beginning, every edit finds its stretch. -/
theorem allFit_of_descending (hfit : ∀ e ∈ edits, Edits cs e) (hdesc : Descending edits) :
    AllFit cs edits := by
  -- what was replaced stands behind the edits that are left
  have grow (edits : List Edit) (hdesc : Descending edits) (a b : List Char)
      (hfit : ∀ e ∈ edits, Edits a e) : AllFit (a ++ b) edits := by
    induction edits generalizing a b with
    | nil => trivial
    | cons e edits ih =>
      obtain ⟨hlater, hdesc⟩ := List.pairwise_cons.mp hdesc
      have he := hfit e List.mem_cons_self
      obtain ⟨x, y, z, rfl, hstart, hstop, -⟩ := he.parts
      have hrest := fit_before hstart (fun f hf => hfit f (List.mem_cons_of_mem _ hf)) hlater
      refine ⟨he.append b, ?_⟩
      have happly := applyEdit_middle x y (z ++ b) hstart hstop
      rw [← List.append_assoc] at happly
      rw [happly, List.append_assoc]
      exact ih hdesc x (e.text.toList ++ (z ++ b)) fun f hf => (hrest f hf).1
  rw [← List.append_nil cs]
  exact grow edits hdesc cs [] hfit

/-- Made from the end of a text to its beginning, edits come to the same as made at once. -/
theorem foldl_applyEdit_eq (hedits : ∀ e ∈ edits, Edits cs e ∧ e.start < e.stop)
    (hdesc : Descending edits) : edits.foldl applyEdit cs = substitute edits 0 cs := by
  induction edits generalizing cs with
  | nil => exact (substitute_eq_self (by simp)).symm
  | cons e edits ih =>
    obtain ⟨hlater, hdesc⟩ := List.pairwise_cons.mp hdesc
    obtain ⟨hfits, hlt⟩ := hedits e List.mem_cons_self
    obtain ⟨x, y, z, rfl, hstart, hstop, happly⟩ := hfits.parts
    have hbefore := fit_before hstart
      (fun f hf => (hedits f (List.mem_cons_of_mem _ hf)).1) hlater
    have hpos : ∀ f ∈ edits, f.start < f.stop :=
      fun f hf => (hedits f (List.mem_cons_of_mem _ hf)).2
    have hhead : substitute (e :: edits) 0 x = substitute edits 0 x :=
      substitute_cons_of_le (by omega)
    have hmiddle : substitute (e :: edits) (bytes x) y = e.text.toList := by
      refine substitute_cons_stretch hstart (by omega) hlt fun f hf => ?_
      have := hpos f hf
      have := (hbefore f hf).2
      omega
    have htail : substitute (e :: edits) (bytes x + bytes y) z = z := by
      refine substitute_eq_self fun f hf => ?_
      rcases List.mem_cons.mp hf with rfl | hf
      · exact ⟨hlt, .inl (by omega)⟩
      · have := hpos f hf
        have := (hbefore f hf).2
        exact ⟨by omega, .inl (by omega)⟩
    calc (e :: edits).foldl applyEdit (x ++ y ++ z)
        = edits.foldl applyEdit (x ++ (e.text.toList ++ z)) := by
          rw [List.foldl_cons, happly, List.append_assoc]
      _ = edits.foldl applyEdit x ++ (e.text.toList ++ z) :=
          foldl_applyEdit_append hbefore hdesc _
      _ = substitute edits 0 x ++ (e.text.toList ++ z) := by
          rw [ih (fun f hf => ⟨(hbefore f hf).1, hpos f hf⟩) hdesc]
      _ = substitute (e :: edits) 0 (x ++ y ++ z) := by
          rw [substitute_append, substitute_append, Nat.zero_add, Nat.zero_add, bytes_append,
            hhead, hmiddle, htail, List.append_assoc]

/-- Edits in any order come to the same, if they are sorted so that each stands before those
that are made before it. -/
theorem applyEdits_eq {text : String}
    (hedits : ∀ e ∈ edits, Edits text.toList e ∧ e.start < e.stop)
    (hdesc : Descending (edits.mergeSort fun a b => b.start ≤ a.start)) :
    (applyEdits text edits).toList = substitute edits 0 text.toList := by
  have hperm := List.mergeSort_perm edits fun a b => decide (b.start ≤ a.start)
  have hdistinct : (edits.mergeSort fun a b => b.start ≤ a.start).Pairwise
      fun e f => e.start ≠ f.start := by
    refine hdesc.imp_of_mem ?_
    intro e f _ hf hle
    have := (hedits f (hperm.mem_iff.mp hf)).2
    omega
  rw [applyEdits, String.toList_ofList,
    foldl_applyEdit_eq (fun e he => hedits e (hperm.mem_iff.mp he)) hdesc]
  exact substitute_perm hperm hdistinct 0 _

/-- Two edits of a text whose length they change, in the wrong order. -/
example : substitute [⟨0, 1, "xyz"⟩, ⟨5, 7, "z"⟩] 0 "aböcdef".toList = "xyzböczf".toList := by
  decide +kernel

end Retarget.Relocation
