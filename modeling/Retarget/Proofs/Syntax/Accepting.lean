import Retarget.Proofs.Syntax.Ranks

/-!
# Which texts are programs

The rules of the language make no node that is out of place (`isSound`), so a text has a
tree exactly if it reads as a program.  `parses_iff` says the same of scanning: a text is a
program if the form of programs accepts it up to gaps and comments.
-/

namespace Retarget.Syntax

variable {N : Type} {ns ms left : List Node} {p q : Place}

/-! ## Nodes out of place -/

namespace Node

@[simp]
theorem hasErrorAny_append (ns ms : List Node) :
    hasErrorAny (ns ++ ms) = (hasErrorAny ns || hasErrorAny ms) := by
  induction ns with
  | nil => rfl
  | cons n ns ih => simp [hasErrorAny, ih, Bool.or_assoc]

theorem hasErrorAny_enclose (t : NodeType) (pos : Nat) (ns : List Node) :
    hasErrorAny (Rule.enclose t pos ns) = hasErrorAny ns := by
  have hsplit : ns.takeWhile (·.is .comment) ++ ns.dropWhile (·.is .comment) = ns :=
    List.takeWhile_append_dropWhile
  have hboth := hasErrorAny_append (ns.takeWhile (·.is .comment)) (ns.dropWhile (·.is .comment))
  rw [hsplit] at hboth
  simp [Rule.enclose, Rule.splitComments, hasErrorAny, hasError, isBad, kind, hboth]

theorem hasErrorAny_assign (f : Field) (ns : List Node) :
    hasErrorAny (Rule.assign f ns) = hasErrorAny ns := by
  induction ns with
  | nil => rfl
  | cons n ns ih =>
    have hn : (if n.is .comment then n else n.withField f).hasError = n.hasError := by
      split
      · rfl
      · cases n
        rfl
    unfold Rule.assign at ih ⊢
    rw [List.map_cons, hasErrorAny, hasErrorAny, ih, hn]

theorem hasErrorAny_skipGaps (n : Nat) (p : Place) : hasErrorAny (p.skipGaps n).1 = false := by
  induction n generalizing p with
  | zero => rfl
  | succ n ih =>
    rw [Place.skipGaps]
    split
    · rfl
    · simp [hasErrorAny, hasError, isBad, kind, ih]

end Node

open Node (hasErrorAny hasErrorAny_append)

namespace Rule

/-- Whether a kind stands for a part of the text. -/
def isSoundKind : Kind → Bool
  | .named _ => true
  | .token => true
  | _ => false

/-- A rule that makes no nodes out of place. -/
def isSound : Rule N → Bool
  | lexeme k _ => isSoundKind k
  | glued k _ => isSoundKind k
  | then_ a b => a.isSound && b.isSound
  | or_ a b => a.isSound && b.isSound
  | many a => a.isSound
  | node _ a => a.isSound
  | role _ a => a.isSound
  | grow a s => a.isSound && s.isSound
  | around _ _ a => a.isSound
  | _ => true

theorem sound_readLexeme {k : Kind} (hk : isSoundKind k = true) {scan : Scan}
    (h : readLexeme k scan p = .ok (ns, q)) : hasErrorAny ns = false := by
  obtain ⟨-, -, -, rfl⟩ := readLexeme_ok h
  cases k with
  | named t => rfl
  | token => rfl
  | missing s => cases hk
  | error => cases hk

/-- Sound rules make no nodes out of place, if the forms that they refer to make none. -/
theorem sound_read {enter : N → Place → Reading}
    (henter : ∀ x p ns q, enter x p = .ok (ns, q) → hasErrorAny ns = false) {r : Rule N}
    (hr : r.isSound = true) (hleft : hasErrorAny left = false)
    (h : r.read enter left p = .ok (ns, q)) : hasErrorAny ns = false := by
  induction r generalizing left p ns q with
  | nothing =>
    obtain ⟨rfl, -⟩ := read_nothing_ok h
    rfl
  | never => cases h
  | lexeme k scan =>
    obtain ⟨ms, hread, rfl⟩ := read_lexeme_ok h
    simp [Node.hasErrorAny_skipGaps, sound_readLexeme hr hread]
  | glued k scan => exact sound_readLexeme hr h
  | where_ test =>
    obtain ⟨rfl, -⟩ := eq_of_isCheck rfl h
    rfl
  | then_ a b iha ihb =>
    obtain ⟨ha, hb⟩ : a.isSound = true ∧ b.isSound = true := by simpa [isSound] using hr
    obtain ⟨xs, r, ys, hfirst, hsecond, rfl⟩ := read_then_ok h
    simp [iha ha hleft hfirst, ihb hb hleft hsecond]
  | or_ a b iha ihb =>
    obtain ⟨ha, hb⟩ : a.isSound = true ∧ b.isSound = true := by simpa [isSound] using hr
    rcases read_or_ok h with hread | ⟨m, hread⟩
    · exact iha ha hleft hread
    · exact ihb hb hleft hread
  | many a iha =>
    refine read_many_induction h (P := fun _ ns _ => hasErrorAny ns = false) ?_ ?_
    · exact fun _ _ => rfl
    · intro p ns q ms r hread hmore
      rw [hasErrorAny_append, iha hr hleft hread, hmore, Bool.or_false]
  | node t a iha =>
    obtain ⟨ms, hread, rfl⟩ := read_node_ok h
    rw [Node.hasErrorAny_enclose]
    exact iha hr hleft hread
  | role f a iha =>
    obtain ⟨ms, hread, rfl⟩ := read_role_ok h
    rw [Node.hasErrorAny_assign]
    exact iha hr hleft hread
  | grow a s iha ihs =>
    obtain ⟨ha, hs⟩ : a.isSound = true ∧ s.isSound = true := by simpa [isSound] using hr
    refine read_grow_induction h (P := fun ns _ => hasErrorAny ns = false) ?_ (fun _ _ _ => id) ?_
    · exact fun ms r hread => iha ha hleft hread
    · exact fun ms r xs s hms hread => ihs hs hms hread
  | around t f a iha =>
    obtain ⟨ms, hread, rfl⟩ := read_around_ok h
    have hinner := iha hr hleft hread
    rw [Node.hasErrorAny_enclose, hasErrorAny_append, hinner, Bool.or_false]
    cases f with
    | some g => exact (Node.hasErrorAny_assign g left).trans hleft
    | none => exact hleft
  | after test =>
    obtain ⟨rfl, -⟩ := eq_of_isCheck rfl h
    rfl
  | «unless» a _ =>
    obtain ⟨rfl, -⟩ := read_unless_ok h
    rfl
  | ahead a _ =>
    obtain ⟨rfl, -⟩ := read_ahead_ok h
    rfl
  | form x => exact henter x p ns q h

end Rule

/-! ## Programs -/

namespace Form

open Rule

theorem isSound_any {rs : List Part} (h : ∀ r ∈ rs, r.isSound = true) :
    (any rs).isSound = true := by
  induction rs with
  | nil => rfl
  | cons r rs ih =>
    cases rs with
    | nil => exact h r List.mem_cons_self
    | cons r' rs =>
      have hrest := ih fun x hx => h x (List.mem_cons_of_mem _ hx)
      simpa [any, isSound, h r List.mem_cons_self] using hrest

theorem isSound_onLine (s : Setting) {r : Part} (h : r.isSound = true) :
    (onLine s r).isSound = true := by
  unfold onLine
  split
  · simpa [isSound] using h
  · exact h

theorem isSound_of_binaryStep {s : Setting} {r : Part} (h : BinaryStep s r) :
    r.isSound = true := by
  cases h with
  | never => rfl
  | marked _ _ => rfl
  | worded _ _ => rfl
  | cast _ => exact isSound_onLine s rfl
  | late hr =>
    have hlate : ∀ r ∈ lateSteps s, r.isSound = true := by
      rw [← List.all_eq_true]
      obtain ⟨a, b, c⟩ := s
      cases a <;> cases c <;> rfl
    exact hlate r hr

theorem isSound_programs (d : Dialect) (x : Form) : (programs d x).isSound = true := by
  cases x with
  | binary s level =>
    obtain ⟨steps, hrule, hsteps⟩ := exists_binarySteps s level
    rw [programs, hrule]
    simpa [isSound] using isSound_any fun r hr => isSound_of_binaryStep (hsteps r hr)
  | unary s =>
    obtain ⟨a, b, c⟩ := s
    cases d <;> cases a <;> cases c <;> rfl
  | operand s =>
    obtain ⟨a, b, c⟩ := s
    cases d <;> cases a <;> cases b <;> cases c <;> rfl
  | program => rfl
  | statement => rfl
  | block => rfl
  | declaration => rfl
  | expressions s => rfl
  | expression s => rfl
  | atom => rfl
  | construction => rfl
  | template => rfl
  | arguments => rfl
  | object => rfl
  | array => rfl
  | pattern => rfl
  | propertyName => rfl
  | parameters => rfl
  | classBody => rfl
  | decorator => rfl
  | type_ => rfl
  | unionType => rfl
  | prefixedType => rfl
  | primaryType => rfl
  | objectType => rfl
  | typeArguments => rfl
  | typeParameters => rfl
  | element => rfl
  | markupExpression => rfl

end Form

variable {d : Dialect} {cs : List Char}

theorem sound_programs (d : Dialect) (n : Nat) (x : Form) (p : Place) (ns : List Node) (q : Place)
    (h : (programs d).read n x p = .ok (ns, q)) : hasErrorAny ns = false := by
  induction n generalizing x p ns q with
  | zero => cases h
  | succ n ih => exact Rule.sound_read ih (Form.isSound_programs d x) rfl h

/-- A text has a tree if it reads as a program. -/
theorem parseChars_of_readProgram (h : readProgram d cs = .ok ns) :
    ∃ tree, d.parseChars cs = .ok tree := by
  have hsound : hasErrorAny ns = false := by
    unfold readProgram at h
    dsimp only at h
    split at h
    · cases h
    · next hprogram =>
      split at h
      · obtain rfl := Except.ok.inj h
        rw [hasErrorAny_append, sound_programs d _ _ _ _ _ hprogram, Node.hasErrorAny_skipGaps]
        rfl
      · cases h
  have hnone : Cursor.firstError (Tree.ofChars d cs) = none := by
    unfold Cursor.firstError Tree.ofChars
    rw [h]
    simp [Node.hasError, Node.isBad, Node.kind, hsound]
  refine ⟨Tree.ofChars d cs, ?_⟩
  unfold Dialect.parseChars
  simp [hnone]

/-- A text is a program if the form of programs accepts it, up to gaps and comments behind
it. -/
theorem parses_iff (d : Dialect) (cs : List Char) :
    (∃ tree, d.parseChars cs = .ok tree) ↔
      ∃ k r, (programs d).accept .program cs = some (k, r) ∧
        Lexeme.skip r = [] := by
  have htold := (programs d).told_read (32 * (Place.start cs).room + 64) .program
    (Place.in_start cs)
  have hroom := (Place.in_start cs).length_lt_room
  have hfuel : (programs d).scan (32 * (Place.start cs).room + 64) .program cs =
      (programs d).accept .program cs := by
    refine (Form.ranked_programs d).scan_eq_accept ?_
    change 32 * cs.length + 8 < _
    change cs.length < _ at hroom
    omega
  change Told cs _ ((programs d).scan _ .program cs) at htold
  rw [hfuel] at htold
  constructor
  · rintro ⟨tree, htree⟩
    obtain ⟨ns, hread, -⟩ := readProgram_of_parseChars htree
    unfold readProgram at hread
    dsimp only at hread
    split at hread
    · cases hread
    · next ms p hprogram =>
      rw [hprogram] at htold
      split at hread
      · next hrest =>
        generalize (programs d).accept .program cs = x at htold ⊢
        cases htold with
        | behind hp hk hr =>
          rw [hp.skipGaps.2, hr] at hrest
          exact ⟨_, _, rfl, hrest⟩
      · cases hread
  · rintro ⟨k, r, haccept, hgaps⟩
    rw [haccept] at htold
    generalize hread : (programs d).read (32 * (Place.start cs).room + 64) .program
      (Place.start cs) = x at htold
    cases htold with
    | @behind ns p _ _ hp hk hr =>
      have hprogram : readProgram d cs = .ok (ns ++ (p.skipGaps p.room).1) := by
        unfold readProgram
        dsimp only
        rw [hread]
        dsimp only
        rw [if_pos (by rw [hp.skipGaps.2, hr, hgaps])]
      exact parseChars_of_readProgram hprogram

end Retarget.Syntax
