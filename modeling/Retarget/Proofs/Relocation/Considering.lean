import Retarget.Proofs.Relocation.Literals

/-!
# Taking matches into account

Relocation takes the matches of its queries one by one into account.  `Considered` says
what it has found after some of them: its edits spell path literals anew, no two of them
start at the same byte, and every path literal that was met has an edit, is on the list of
those left alone, or is spelled as before.
-/

namespace Retarget.Relocation

open Syntax

/-- A quoted literal under a key on the list that can be a path of the workspace. -/
structure PathLiteral (keys : List String) (cs : List Char) (key value : Node) (q : Char)
    (literal : List Char) : Prop where
  listed : keys.contains (String.ofList (unquote (key.textIn cs).toList)) = true
  quoted : splitLiteral (value.textIn cs).toList = some (q, literal)
  relocatable : isRelocatable literal = true

/-- The edit that spells a quoted literal anew.  The text is read behind a parenthesis. -/
def respell (value : Node) (q : Char) (moved : String) : Edit :=
  ⟨value.start - 1, value.stop - 1, String.singleton q ++ moved ++ String.singleton q⟩

/-- What becomes of a path literal: an edit of its stretch, a place among those left alone,
or nothing because it is spelled as before. -/
def Settled (old new : Path) (p : Progress) (value : Node) (literal : List Char) : Prop :=
  (∃ e ∈ p.edits, e.start = value.start - 1) ∨
    (Path.rebase (String.ofList literal) old new = none ∧ String.ofList literal ∈ p.unresolved) ∨
      Path.rebase (String.ofList literal) old new = some (String.ofList literal)

/-- What relocation has found after some matches in a tree. -/
structure Considered (keys : List String) (old new : Path) (cs : List Char) (tree : Node)
    (seen : List Match) (p : Progress) : Prop where
  edits : ∀ e ∈ p.edits, ∃ k v q literal moved, Valued tree k v ∧
    PathLiteral keys cs k v q literal ∧
      Path.rebase (String.ofList literal) old new = some moved ∧ e = respell v q moved
  distinct : p.edits.Pairwise fun e f => e.start ≠ f.start
  settled : ∀ m ∈ seen, ∀ k v q literal, m.captures = [("key", k), ("value", v)] →
    PathLiteral keys cs k v q literal → Settled old new p v literal

variable {keys : List String} {old new : Path} {cs : List Char} {tree k v : Node}
  {seen ms : List Match} {p r : Progress} {m : Match} {q : Char} {literal : List Char}

theorem Settled.mono (h : Settled old new p v literal) (hedits : p.edits ⊆ r.edits)
    (hunresolved : p.unresolved ⊆ r.unresolved) : Settled old new r v literal := by
  rcases h with ⟨e, he, hstart⟩ | ⟨hnone, hmem⟩ | hsame
  · exact .inl ⟨e, hedits he, hstart⟩
  · exact .inr (.inl ⟨hnone, hunresolved hmem⟩)
  · exact .inr (.inr hsame)

theorem PathLiteral.inj {q' : Char} {literal' : List Char} (h : PathLiteral keys cs k v q literal)
    (h' : PathLiteral keys cs k v q' literal') : q' = q ∧ literal' = literal := by
  obtain ⟨hq, hliteral⟩ := Prod.mk.inj (Option.some.inj (h.quoted.symm.trans h'.quoted))
  exact ⟨hq.symm, hliteral.symm⟩

/-! ## One match -/

theorem captured (hm : m.captures = [("key", k), ("value", v)]) :
    m.capture? "key" = some k ∧ m.capture? "value" = some v := by
  simp [Match.capture?, hm]

theorem consider_of_edited (hm : m.captures = [("key", k), ("value", v)])
    (h : ∃ e ∈ p.edits, e.start = v.start - 1) : consider keys old new cs p m = p := by
  have hedited : (p.edits.any fun e => decide (e.start = v.start - 1)) = true := by simpa using h
  unfold consider
  rw [(captured hm).1, (captured hm).2]
  dsimp only
  rw [hedited, if_pos rfl, ite_self]

theorem consider_of_not_literal (hm : m.captures = [("key", k), ("value", v)])
    (h : ∀ q literal, ¬PathLiteral keys cs k v q literal) : consider keys old new cs p m = p := by
  unfold consider
  rw [(captured hm).1, (captured hm).2]
  dsimp only
  split
  · rfl
  · next hlisted =>
    split
    · rfl
    · split
      · rfl
      · next q literal hsplit =>
        split
        · rfl
        · next hrelocatable =>
          exact absurd ⟨by simpa using hlisted, hsplit, by simpa using hrelocatable⟩ (h q literal)

theorem consider_of_literal (hm : m.captures = [("key", k), ("value", v)])
    (h : PathLiteral keys cs k v q literal) (hfresh : ∀ e ∈ p.edits, e.start ≠ v.start - 1) :
    consider keys old new cs p m =
      match Path.rebase (String.ofList literal) old new with
      | none => { p with unresolved := p.unresolved ++ [String.ofList literal] }
      | some moved =>
        if moved = String.ofList literal then p
        else
          { p with
            edits := p.edits ++ [respell v q moved]
            replaced := p.replaced ++ [(String.ofList literal, moved)] } := by
  have hedited : (p.edits.any fun e => decide (e.start = v.start - 1)) = false := by
    simpa using hfresh
  unfold consider
  rw [(captured hm).1, (captured hm).2]
  dsimp only
  rw [h.listed, hedited, h.quoted]
  dsimp only
  rw [h.relocatable]
  rfl

/-- What holds of what was found holds after one match more. -/
theorem Considered.consider (h : Considered keys old new cs tree seen p)
    (hm : m.captures = [("key", k), ("value", v)]) (hv : Valued tree k v) :
    Considered keys old new cs tree (seen ++ [m]) (consider keys old new cs p m) := by
  -- it is enough that this match is settled, and nothing that was found is lost
  have extend (r : Progress) (hedits : p.edits ⊆ r.edits) (hunresolved : p.unresolved ⊆ r.unresolved)
      (hsettled : ∀ q literal, PathLiteral keys cs k v q literal → Settled old new r v literal) :
      ∀ m' ∈ seen ++ [m], ∀ k v q literal, m'.captures = [("key", k), ("value", v)] →
        PathLiteral keys cs k v q literal → Settled old new r v literal := by
    intro m' hm' k' v' q literal hcaptures hliteral
    rcases List.mem_append.mp hm' with hseen | hlast
    · exact (h.settled m' hseen k' v' q literal hcaptures hliteral).mono hedits hunresolved
    · obtain rfl := List.mem_singleton.mp hlast
      simp only [hm, List.cons.injEq, Prod.mk.injEq, true_and, and_true] at hcaptures
      obtain ⟨rfl, rfl⟩ := hcaptures
      exact hsettled q literal hliteral
  by_cases hedited : ∃ e ∈ p.edits, e.start = v.start - 1
  · rw [consider_of_edited hm hedited]
    refine ⟨h.edits, h.distinct, extend p (List.Subset.refl _) (List.Subset.refl _) ?_⟩
    intro q literal _
    exact .inl hedited
  by_cases hnone : ∀ q literal, ¬PathLiteral keys cs k v q literal
  · rw [consider_of_not_literal hm hnone]
    refine ⟨h.edits, h.distinct, extend p (List.Subset.refl _) (List.Subset.refl _) ?_⟩
    intro q literal hliteral
    exact absurd hliteral (hnone q literal)
  obtain ⟨q, literal, hliteral⟩ : ∃ q literal, PathLiteral keys cs k v q literal := by
    simpa using hnone
  have hfresh : ∀ e ∈ p.edits, e.start ≠ v.start - 1 := by
    simpa using hedited
  -- a literal that was not edited before
  have only {r : Progress} (hsettled : Settled old new r v literal) :
      ∀ q' literal', PathLiteral keys cs k v q' literal' → Settled old new r v literal' := by
    intro q' literal' hliteral'
    rw [(hliteral.inj hliteral').2]
    exact hsettled
  rw [consider_of_literal hm hliteral hfresh]
  cases hrebase : Path.rebase (String.ofList literal) old new with
  | none =>
    refine ⟨h.edits, h.distinct, extend _ (List.Subset.refl _) (List.subset_append_left _ _) ?_⟩
    exact only (.inr (.inl ⟨hrebase, List.mem_append_right _ List.mem_cons_self⟩))
  | some moved =>
    dsimp only
    by_cases hsame : moved = String.ofList literal
    · rw [if_pos hsame]
      refine ⟨h.edits, h.distinct, extend p (List.Subset.refl _) (List.Subset.refl _) ?_⟩
      exact only (.inr (.inr (hrebase.trans (congrArg some hsame))))
    · rw [if_neg hsame]
      refine ⟨?_, ?_, extend _ (List.subset_append_left _ _) (List.Subset.refl _) ?_⟩
      · intro e he
        rcases List.mem_append.mp he with hold | hlast
        · exact h.edits e hold
        · exact ⟨k, v, q, literal, moved, hv, hliteral, hrebase, List.mem_singleton.mp hlast⟩
      · refine List.pairwise_append.mpr ⟨h.distinct, List.pairwise_singleton _ _, ?_⟩
        intro e he f hf
        obtain rfl := List.mem_singleton.mp hf
        exact hfresh e he
      · exact only (.inl ⟨_, List.mem_append_right _ List.mem_cons_self, rfl⟩)

/-- All matches, one after the other. -/
theorem Considered.foldl (h : Considered keys old new cs tree seen p)
    (hms : ∀ m ∈ ms, ∃ k v, Valued tree k v ∧ m.captures = [("key", k), ("value", v)]) :
    Considered keys old new cs tree (seen ++ ms)
      (ms.foldl (Relocation.consider keys old new cs) p) := by
  induction ms generalizing seen p with
  | nil => simpa using h
  | cons m ms ih =>
    obtain ⟨k, v, hv, hm⟩ := hms m List.mem_cons_self
    have hstep := ih (h.consider hm hv) fun m hm => hms m (List.mem_cons_of_mem _ hm)
    rwa [List.append_assoc] at hstep

end Retarget.Relocation
