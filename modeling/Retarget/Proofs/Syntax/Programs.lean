import Retarget.Language
import Retarget.Proofs.Syntax.Reading

/-!
# Trees of programs

The rules of the language are plain, so the tree of a text that is a program lies over
the text.
-/

namespace Retarget.Syntax

namespace Form

open Rule

theorem isStep_any {rs : List Part} (h : ∀ r ∈ rs, r.isStep = true) :
    (any rs).isStep = true := by
  induction rs with
  | nil => rfl
  | cons r rs ih =>
    cases rs with
    | nil => exact h r List.mem_cons_self
    | cons r' rs =>
      have hrest := ih fun x hx => h x (List.mem_cons_of_mem _ hx)
      have hfirst := h r List.mem_cons_self
      simp only [any, isStep, hfirst, Bool.true_and]
      exact hrest

theorem isStep_onLine (s : Setting) {r : Part} (h : r.isStep = true) :
    (onLine s r).isStep = true := by
  unfold onLine
  split
  · simpa [isStep, isCheck] using h
  · exact h

/-- What is written behind the left operand of a binary expression: an operator with its
right operand, a cast, or a late step. -/
inductive BinaryStep (s : Setting) : Part → Prop
  | never : BinaryStep s .never
  | marked {row : String × String × Nat} (hrow : row ∈ binaryMarks) (next : Form) :
      BinaryStep s (.around .binaryExpression (some .left)
        (.then_ (.role .operator (mark row.1 row.2.1)) (.role .right (.form next))))
  | worded {row : String × Nat} (hrow : row ∈ binaryWords) (next : Form) :
      BinaryStep s (.around .binaryExpression (some .left)
        (.then_ (.role .operator (word row.1)) (.role .right (.form next))))
  | cast {t : NodeType} {w : String}
      (h : (t, w) ∈ [(.asExpression, "as"), (.satisfiesExpression, "satisfies")]) :
      BinaryStep s (onLine s (.around t none (.then_ (word w)
        (.or_ (.then_ (word "const") (.unless (sign "."))) (.form .type_)))))
  | late {r : Part} (hr : r ∈ lateSteps s) : BinaryStep s r

/-- There are two casts. -/
theorem eq_of_mem_casts {t : NodeType} {w : String}
    (h : (t, w) ∈ [(.asExpression, "as"), (.satisfiesExpression, "satisfies")]) :
    t = .asExpression ∧ w = "as" ∨ t = .satisfiesExpression ∧ w = "satisfies" := by
  simpa using h

/-- A binary expression grows by such steps, on every level. -/
theorem exists_binarySteps (s : Setting) (level : Nat) :
    ∃ steps, binaryRule s level = .grow (.form (.unary s)) (any steps) ∧
      ∀ r ∈ steps, BinaryStep s r := by
  refine ⟨_, rfl, fun r hr => ?_⟩
  rcases List.mem_append.mp hr with hr | hr
  · rcases List.mem_append.mp hr with hr | hr
    · rcases List.mem_append.mp hr with hr | hr
      · obtain ⟨row, hrow, rfl⟩ := List.mem_map.mp hr
        dsimp only
        split
        · exact .never
        · exact .marked hrow _
      · obtain ⟨row, hrow, rfl⟩ := List.mem_map.mp hr
        dsimp only
        split
        · exact .never
        · exact .worded hrow _
    · rcases List.mem_cons.mp hr with rfl | hr
      · dsimp only
        split
        · exact .never
        · exact .cast List.mem_cons_self
      · rw [List.mem_singleton.mp hr]
        dsimp only
        split
        · exact .never
        · exact .cast (List.mem_cons_of_mem _ List.mem_cons_self)
  · exact .late hr

/-- Operators of a binary expression go around their left operand. -/
theorem isStep_of_binaryStep {s : Setting} {r : Part} (h : BinaryStep s r) : r.isStep = true := by
  cases h with
  | never => rfl
  | marked _ _ => rfl
  | worded _ _ => rfl
  | cast h =>
    refine isStep_onLine s ?_
    rcases eq_of_mem_casts h with ⟨rfl, rfl⟩ | ⟨rfl, rfl⟩
    · rfl
    · rfl
  | late hr =>
    have hlate : ∀ r ∈ lateSteps s, r.isStep = true := by
      rw [← List.all_eq_true]
      obtain ⟨a, b, c⟩ := s
      cases a <;> cases c <;> rfl
    exact hlate r hr

theorem isPlain_binaryRule (s : Setting) (level : Nat) : (binaryRule s level).isPlain = true := by
  obtain ⟨steps, hrule, hsteps⟩ := exists_binarySteps s level
  rw [hrule]
  simpa [isPlain] using isStep_any fun r hr => isStep_of_binaryStep (hsteps r hr)

theorem isPlain_programs (d : Dialect) (f : Form) : (programs d f).isPlain = true := by
  cases f with
  | binary s level => exact isPlain_binaryRule s level
  | unary s =>
    obtain ⟨a, b, c⟩ := s
    cases d <;> cases a <;> cases c <;> rfl
  | operand s =>
    obtain ⟨a, b, c⟩ := s
    cases d <;> cases a <;> cases b <;> cases c <;> rfl
  | program => rfl
  | statement => rfl
  | block => rfl
  | declaration => rfl
  | expressions s => rfl
  | expression s => rfl
  | atom => rfl
  | construction => rfl
  | template => rfl
  | arguments => rfl
  | object => rfl
  | array => rfl
  | pattern => rfl
  | propertyName => rfl
  | parameters => rfl
  | classBody => rfl
  | decorator => rfl
  | type_ => rfl
  | unionType => rfl
  | prefixedType => rfl
  | primaryType => rfl
  | objectType => rfl
  | typeArguments => rfl
  | typeParameters => rfl
  | element => rfl
  | markupExpression => rfl

end Form

variable {d : Dialect} {cs : List Char} {tree : Node}

/-- The flaw of a text is the first node out of place. -/
theorem firstError_flaw (flaw : Flaw) (b : Nat) :
    Cursor.firstError (.mk (.named .program) none 0 b [Tree.flawNode flaw]) =
      some (Tree.flawNode flaw) := by
  obtain ⟨offset, missing | spelling⟩ := flaw
  · rfl
  · rfl

/-- A text without anything out of place is a program. -/
theorem readProgram_of_parseChars (h : d.parseChars cs = .ok tree) :
    ∃ ns, readProgram d cs = .ok ns ∧ tree = .mk (.named .program) none 0 (Place.bytes cs) ns := by
  have htree : tree = Tree.ofChars d cs := by
    unfold Dialect.parseChars at h
    dsimp only at h
    split at h
    · exact (Except.ok.inj h).symm
    · cases h
  cases hread : readProgram d cs with
  | ok ns => exact ⟨ns, rfl, by rw [htree, Tree.ofChars, hread]⟩
  | error m =>
    have hbad : Cursor.firstError (Tree.ofChars d cs) ≠ none := by
      rw [Tree.ofChars, hread]
      simp [firstError_flaw]
    unfold Dialect.parseChars at h
    dsimp only at h
    split at h
    · next hnone => exact absurd hnone hbad
    · cases h

/-- The tree of a program lies over its text. -/
theorem placed_of_parseChars (h : d.parseChars cs = .ok tree) : tree.Placed cs := by
  obtain ⟨ns, hread, rfl⟩ := readProgram_of_parseChars h
  unfold readProgram at hread
  dsimp only at hread
  split at hread
  · cases hread
  · next ms p hprogram =>
    have hreads := Grammar.read_spec (Form.isPlain_programs d) _ _ _ _ _ (Place.on_start cs) hprogram
    obtain ⟨hon, hcomments⟩ := Place.skipGaps_spec p.room hreads.on
    split at hread
    · next hrest =>
      obtain rfl := Except.ok.inj hread
      -- the whole text was read
      have hend : (p.skipGaps p.room).2.pos = Place.bytes cs := by
        obtain ⟨a, ha, hpos⟩ := hon
        rw [hrest, List.append_nil] at ha
        rw [hpos, ha]
      refine ⟨cut_zero cs, cut_bytes cs, Nat.zero_le _, ?_, ?_⟩
      · rw [← hend]
        exact Node.row_append hreads.row hcomments
      · intro hstring
        cases hstring
    · cases hread

end Retarget.Syntax
