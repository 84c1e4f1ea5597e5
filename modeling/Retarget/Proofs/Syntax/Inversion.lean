import Retarget.Syntax.Rule

/-!
# What it takes to read a rule

A rule that reads something reads it through its parts.  For each shape of rule the lemma named
after it gives what the parts read, and how the nodes of the whole are put together from that.
For the two shapes that read a part over and over it is a rule of induction over the turns.
-/

namespace Retarget.Syntax

theorem Place.reached_zero (p : Place) : p.reached 0 = p := by
  rw [reached, Nat.max_zero]

namespace Rule

variable {N : Type} {enter : N → Place → Reading} {a b : Rule N} {k : Kind} {scan : Scan}
  {left ns : List Node} {p q : Place}

/-- A reading that passes a failure on and goes on behind what was read. -/
theorem chain_ok {x : Reading} {f : List Node → Place → Reading} {r : List Node × Place}
    (h : (match x with | .error m => .error m | .ok (ns, q) => f ns q : Reading) = .ok r) :
    ∃ ns q, x = .ok (ns, q) ∧ f ns q = .ok r := by
  cases x with
  | error m => cases h
  | ok s => exact ⟨s.1, s.2, rfl, h⟩

theorem readLexeme_ok (h : readLexeme k scan p = .ok (ns, q)) :
    ∃ n, scan p.rest = some n ∧ q = p.advance n ∧ ns = [.mk k none p.pos q.pos []] := by
  unfold readLexeme at h
  split at h
  · cases h
  · next n hscan =>
    obtain ⟨rfl, rfl⟩ := Prod.mk.inj (Except.ok.inj h)
    exact ⟨n, hscan, rfl, rfl⟩

theorem read_nothing_ok (h : (nothing : Rule N).read enter left p = .ok (ns, q)) :
    ns = [] ∧ q = p := by
  obtain ⟨rfl, rfl⟩ := Prod.mk.inj (Except.ok.inj h)
  exact ⟨rfl, rfl⟩

theorem read_lexeme_ok (h : (lexeme k scan : Rule N).read enter left p = .ok (ns, q)) :
    ∃ ms, readLexeme k scan (p.skipGaps p.room).2 = .ok (ms, q) ∧
      ns = (p.skipGaps p.room).1 ++ ms := by
  obtain ⟨ms, _, hread, h⟩ := chain_ok h
  obtain ⟨rfl, rfl⟩ := Prod.mk.inj (Except.ok.inj h)
  exact ⟨ms, hread, rfl⟩

theorem read_then_ok (h : (then_ a b).read enter left p = .ok (ns, q)) :
    ∃ xs r ys, a.read enter left p = .ok (xs, r) ∧ b.read enter left r = .ok (ys, q) ∧
      ns = xs ++ ys := by
  obtain ⟨xs, r, hfirst, h⟩ := chain_ok h
  obtain ⟨ys, _, hsecond, h⟩ := chain_ok h
  obtain ⟨rfl, rfl⟩ := Prod.mk.inj (Except.ok.inj h)
  exact ⟨xs, r, ys, hfirst, hsecond, rfl⟩

theorem read_or_ok (h : (or_ a b).read enter left p = .ok (ns, q)) :
    a.read enter left p = .ok (ns, q) ∨ ∃ m, b.read enter left (p.reached m) = .ok (ns, q) := by
  rw [read] at h
  split at h
  · next hread =>
    obtain rfl := Except.ok.inj h
    exact .inl hread
  · next m _ => exact .inr ⟨m, h⟩

/-- What holds of reading nothing, and of a turn with what is read behind it, holds of all that
is read over and over. -/
theorem read_many_induction {P : Place → List Node → Place → Prop}
    (h : (many a).read enter left p = .ok (ns, q)) (hstop : ∀ p m, P p [] (p.reached m))
    (hturn : ∀ p ns q ms r, a.read enter left p = .ok (ns, q) → P q ms r → P p (ns ++ ms) r) :
    P p ns q := by
  have hmany (n : Nat) (p : Place) : P p (readMany (a.read enter left) n p).1
      (readMany (a.read enter left) n p).2 := by
    induction n generalizing p with
    | zero =>
      have hnone := hstop p 0
      rwa [Place.reached_zero] at hnone
    | succ n ih =>
      rw [readMany]
      split
      · exact hstop p _
      · next ns q hread =>
        split
        · exact hstop p _
        · exact hturn p ns q _ _ hread (ih q)
  have hall := hmany p.room p
  rwa [Except.ok.inj h] at hall

theorem read_node_ok {t : NodeType} (h : (node t a).read enter left p = .ok (ns, q)) :
    ∃ ms, a.read enter left p = .ok (ms, q) ∧ ns = enclose t p.pos ms := by
  obtain ⟨ms, _, hread, h⟩ := chain_ok h
  obtain ⟨rfl, rfl⟩ := Prod.mk.inj (Except.ok.inj h)
  exact ⟨ms, hread, rfl⟩

/-- A role does not change what a node is. -/
theorem kind_assigned (f : Field) (n : Node) :
    (if n.is .comment then n else n.withField f).kind = n.kind := by
  split
  · rfl
  · cases n
    rfl

theorem read_role_ok {f : Field} (h : (role f a).read enter left p = .ok (ns, q)) :
    ∃ ms, a.read enter left p = .ok (ms, q) ∧ ns = assign f ms := by
  obtain ⟨ms, _, hread, h⟩ := chain_ok h
  obtain ⟨rfl, rfl⟩ := Prod.mk.inj (Except.ok.inj h)
  exact ⟨ms, hread, rfl⟩

/-- What holds of the part that comes first, and is kept by each step, holds of the part that is
grown in the end. -/
theorem read_grow_induction {P : List Node → Place → Prop}
    (h : (grow a b).read enter left p = .ok (ns, q))
    (hbase : ∀ ms r, a.read enter left p = .ok (ms, r) → P ms r)
    (hreached : ∀ ms r m, P ms r → P ms (r.reached m))
    (hstep : ∀ ms r xs s, P ms r → b.read enter ms r = .ok (xs, s) → P xs s) : P ns q := by
  have hgrow (n : Nat) (ms : List Node) (r : Place) (hms : P ms r) :
      P (readGrow (b.read enter) n ms r).1 (readGrow (b.read enter) n ms r).2 := by
    induction n generalizing ms r with
    | zero => exact hms
    | succ n ih =>
      rw [readGrow]
      split
      · exact hreached ms r _ hms
      · next xs s hread =>
        split
        · exact hreached ms r _ hms
        · exact ih xs s (hstep ms r xs s hms hread)
  obtain ⟨ms, r, hread, h⟩ := chain_ok h
  have hgrown := hgrow r.room ms r (hbase ms r hread)
  rwa [Except.ok.inj h] at hgrown

theorem read_around_ok {t : NodeType} {f : Option Field}
    (h : (around t f a).read enter left p = .ok (ns, q)) :
    ∃ ms, a.read enter left p = .ok (ms, q) ∧
      ns = enclose t p.pos (f.elim left (assign · left) ++ ms) := by
  obtain ⟨ms, _, hread, h⟩ := chain_ok h
  obtain ⟨rfl, rfl⟩ := Prod.mk.inj (Except.ok.inj h)
  refine ⟨ms, hread, ?_⟩
  cases f with
  | some g => rfl
  | none => rfl

theorem read_unless_ok (h : («unless» a).read enter left p = .ok (ns, q)) : ns = [] ∧ q = p := by
  rw [read] at h
  split at h
  · cases h
  · obtain ⟨rfl, rfl⟩ := Prod.mk.inj (Except.ok.inj h)
    exact ⟨rfl, rfl⟩

theorem read_ahead_ok (h : (ahead a).read enter left p = .ok (ns, q)) : ns = [] ∧ q = p := by
  rw [read] at h
  split at h
  · obtain ⟨rfl, rfl⟩ := Prod.mk.inj (Except.ok.inj h)
    exact ⟨rfl, rfl⟩
  · cases h

end Rule

end Retarget.Syntax
