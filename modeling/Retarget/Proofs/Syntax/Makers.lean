import Retarget.Proofs.Syntax.Programs

/-!
# Which rules make a node

`Rule.makers t` lists the parts of a rule that make nodes of a type.  It misses none: if
whatever the makers read of that type has certain children, then so has every such node that
the rule reads, however deep it stands (`Rule.forall_read`).  For a grammar it is enough to
look at the makers of its rules, and `forall_of_parseChars` says so of programs.
-/

namespace Retarget.Syntax

variable {N : Type} {ns ms left : List Node} {n : Node} {t : NodeType} {p q : Place}
  {Q : List Node → Prop}

namespace Node

theorem preorderAll_append (ns ms : List Node) :
    preorderAll (ns ++ ms) = preorderAll ns ++ preorderAll ms := by
  induction ns with
  | nil => rfl
  | cons n ns ih => simp [preorderAll, ih]

/-- A property of the children of all nodes of a type, in a row of trees. -/
def Children (t : NodeType) (Q : List Node → Prop) (ns : List Node) : Prop :=
  ∀ n ∈ preorderAll ns, n.is t → Q n.children

theorem Children.append (h : Children t Q ns) (h' : Children t Q ms) :
    Children t Q (ns ++ ms) := by
  intro n hn
  rw [preorderAll_append] at hn
  rcases List.mem_append.mp hn with hn | hn
  · exact h n hn
  · exact h' n hn

theorem children_nil (t : NodeType) (Q : List Node → Prop) : Children t Q [] := by
  intro n hn
  cases hn

/-- Leaves of other types. -/
theorem children_of_leaves (h : ∀ n ∈ ns, n.kind ≠ .named t ∧ n.children = []) :
    Children t Q ns := by
  intro n hn his
  obtain ⟨m, hm, hn⟩ := mem_preorderAll.mp hn
  rcases mem_preorder.mp hn with rfl | ⟨k, hk, -⟩
  · exact absurd (by simpa [Node.is] using his) (h n hm).1
  · rw [(h m hm).2] at hk
    cases hk

/-- Roles do not matter for children. -/
theorem Children.assign (h : Children t Q ns) (f : Field) :
    Children t Q (Rule.assign f ns) := by
  intro n hn his
  obtain ⟨m, hm, hn⟩ := mem_preorderAll.mp hn
  obtain ⟨k, hk, rfl⟩ := List.mem_map.mp hm
  split at hn
  · exact h n (mem_preorderAll.mpr ⟨k, hk, hn⟩) his
  · obtain ⟨kind, g, a, b, children⟩ := k
    rcases mem_preorder.mp hn with rfl | ⟨c, hc, hbelow⟩
    · exact h (.mk kind g a b children) (mem_preorderAll.mpr ⟨_, hk, List.mem_cons_self⟩) his
    · exact h n (mem_preorderAll.mpr ⟨_, hk, mem_preorder.mpr (.inr ⟨c, hc, hbelow⟩)⟩) his

/-- Below a node that encloses a row stand the nodes of the row. -/
theorem Children.enclose {t' : NodeType} {pos : Nat} (h : Children t Q ns)
    (houter : ∀ n ∈ Rule.enclose t' pos ns, n.is t → Q n.children) :
    Children t Q (Rule.enclose t' pos ns) := by
  have hsplit : ns.takeWhile (·.is .comment) ++ ns.dropWhile (·.is .comment) = ns :=
    List.takeWhile_append_dropWhile
  intro n hn his
  obtain ⟨m, hm, hn⟩ := mem_preorderAll.mp hn
  have hinside (k : Node) (hk : k ∈ ns) (hn : n ∈ k.preorder) : Q n.children :=
    h n (mem_preorderAll.mpr ⟨k, hk, hn⟩) his
  rcases mem_preorder.mp hn with rfl | ⟨c, hc, hn'⟩
  · exact houter n hm his
  · rcases List.mem_append.mp hm with hbefore | hnode
    · refine hinside m ?_ hn
      rw [← hsplit]
      exact List.mem_append_left _ hbefore
    · rw [List.mem_singleton.mp hnode] at hc
      refine hinside c ?_ hn'
      rw [← hsplit]
      exact List.mem_append_right _ hc

end Node

open Node (Children)

namespace Rule

/-- The parts of a rule that make nodes of a type, apart from comments. -/
def makers (t : NodeType) : Rule N → List (Rule N)
  | lexeme k s => if k = .named t then [lexeme k s] else []
  | glued k s => if k = .named t then [glued k s] else []
  | node t' a => if t' = t then node t' a :: a.makers t else a.makers t
  | around t' f a => if t' = t then around t' f a :: a.makers t else a.makers t
  | then_ a b => a.makers t ++ b.makers t
  | or_ a b => a.makers t ++ b.makers t
  | grow a s => a.makers t ++ s.makers t
  | many a => a.makers t
  | role _ a => a.makers t
  | _ => []

/-- What a rule reads of a type has certain children. -/
def Makes (enter : N → Place → Reading) (t : NodeType) (Q : List Node → Prop) (r : Rule N) :
    Prop :=
  ∀ left p ns q, r.read enter left p = .ok (ns, q) → ∀ n ∈ ns, n.is t → Q n.children

/-- A lexeme is a leaf. -/
theorem children_readLexeme {k : Kind} {scan : Scan} (h : readLexeme k scan p = .ok (ns, q))
    (hmade : k = .named t → ∀ n ∈ ns, n.is t → Q n.children) : Children t Q ns := by
  obtain ⟨-, -, -, rfl⟩ := readLexeme_ok h
  by_cases hk : k = .named t
  · intro n hn his
    have hself : n = .mk k none p.pos q.pos [] := by
      simpa [Node.preorderAll, Node.preorder] using hn
    exact hmade hk n (List.mem_singleton.mpr hself) his
  · refine Node.children_of_leaves fun n hn => ?_
    rw [List.mem_singleton.mp hn]
    exact ⟨hk, rfl⟩

/-- Gaps hold comments only. -/
theorem children_skipGaps (ht : t ≠ .comment) (n : Nat) (p : Place) :
    Children t Q (p.skipGaps n).1 := by
  refine Node.children_of_leaves fun x hx => ?_
  obtain ⟨hkind, hleaf⟩ := Place.comment_of_mem_skipGaps n p x hx
  refine ⟨?_, hleaf⟩
  rw [hkind]
  exact fun heq => ht (Kind.named.inj heq).symm

/-- A node that encloses others is of its maker's type, and only comments stand before it. -/
theorem forall_enclose {t' : NodeType} {pos : Nat} (ht : t ≠ .comment)
    (hmade : t' = t → ∀ n ∈ enclose t' pos ns, n.is t → Q n.children) :
    ∀ n ∈ enclose t' pos ns, n.is t → Q n.children := by
  intro n hn his
  rcases List.mem_append.mp hn with hbefore | hnode
  · have hcomment := List.mem_takeWhile_imp hbefore
    simp only [Node.is, decide_eq_true_eq] at hcomment his
    rw [hcomment] at his
    exact absurd (Kind.named.inj his).symm ht
  · have hkind : n.kind = .named t' := by
      rw [List.mem_singleton.mp hnode]
      rfl
    simp only [Node.is, decide_eq_true_eq, hkind, Kind.named.injEq] at his
    exact hmade his n hn (by simp [Node.is, hkind, his])

/-- The makers of a rule, and the forms that it refers to, decide what children all nodes of
a type have. -/
theorem forall_read {enter : N → Place → Reading} (ht : t ≠ .comment)
    (henter : ∀ x p ns q, enter x p = .ok (ns, q) → Children t Q ns) {r : Rule N}
    (hr : ∀ m ∈ r.makers t, m.Makes enter t Q) (hleft : Children t Q left)
    (h : r.read enter left p = .ok (ns, q)) : Children t Q ns := by
  induction r generalizing left p ns q with
  | nothing =>
    obtain ⟨rfl, -⟩ := read_nothing_ok h
    exact Node.children_nil t Q
  | never => cases h
  | lexeme k scan =>
    have hmade : k = .named t → ∀ n ∈ ns, n.is t → Q n.children := by
      intro hk
      exact hr _ (by simp [makers, hk]) left p ns q h
    obtain ⟨ms, hread, rfl⟩ := read_lexeme_ok h
    refine (children_skipGaps ht _ p).append (children_readLexeme hread fun hk n hn => ?_)
    exact hmade hk n (List.mem_append_right _ hn)
  | glued k scan =>
    refine children_readLexeme h fun hk => ?_
    exact hr _ (by simp [makers, hk]) left p ns q h
  | where_ test =>
    obtain ⟨rfl, -⟩ := eq_of_isCheck rfl h
    exact Node.children_nil t Q
  | then_ a b iha ihb =>
    obtain ⟨xs, r, ys, hfirst, hsecond, rfl⟩ := read_then_ok h
    exact (iha (fun m hm => hr m (List.mem_append_left _ hm)) hleft hfirst).append
      (ihb (fun m hm => hr m (List.mem_append_right _ hm)) hleft hsecond)
  | or_ a b iha ihb =>
    rcases read_or_ok h with hread | ⟨m, hread⟩
    · exact iha (fun m hm => hr m (List.mem_append_left _ hm)) hleft hread
    · exact ihb (fun m hm => hr m (List.mem_append_right _ hm)) hleft hread
  | many a iha =>
    refine read_many_induction h (P := fun _ ns _ => Children t Q ns) ?_ ?_
    · exact fun _ _ => Node.children_nil t Q
    · exact fun p ns q ms r hread hmore => (iha hr hleft hread).append hmore
  | node t' a iha =>
    have hmade : t' = t → ∀ n ∈ ns, n.is t → Q n.children := by
      intro heq
      exact hr _ (by simp [makers, heq]) left p ns q h
    obtain ⟨ms, hread, rfl⟩ := read_node_ok h
    have hinner := iha (fun m hm => hr m (by rw [makers]; split <;> simp [hm])) hleft hread
    exact hinner.enclose (forall_enclose ht hmade)
  | role f a iha =>
    obtain ⟨ms, hread, rfl⟩ := read_role_ok h
    exact (iha hr hleft hread).assign f
  | grow a s iha ihs =>
    refine read_grow_induction h (P := fun ns _ => Children t Q ns) ?_ (fun _ _ _ => id) ?_
    · intro ms r hread
      exact iha (fun m hm => hr m (List.mem_append_left _ hm)) hleft hread
    · intro ms r xs s hms hread
      exact ihs (fun m hm => hr m (List.mem_append_right _ hm)) hms hread
  | around t' f a iha =>
    have hmade : t' = t → ∀ n ∈ ns, n.is t → Q n.children := by
      intro heq
      exact hr _ (by simp [makers, heq]) left p ns q h
    obtain ⟨ms, hread, rfl⟩ := read_around_ok h
    have hinner := iha (fun m hm => hr m (by rw [makers]; split <;> simp [hm])) hleft hread
    cases f with
    | some g => exact ((hleft.assign g).append hinner).enclose (forall_enclose ht hmade)
    | none => exact (hleft.append hinner).enclose (forall_enclose ht hmade)
  | after test =>
    obtain ⟨rfl, -⟩ := eq_of_isCheck rfl h
    exact Node.children_nil t Q
  | «unless» a _ =>
    obtain ⟨rfl, -⟩ := read_unless_ok h
    exact Node.children_nil t Q
  | ahead a _ =>
    obtain ⟨rfl, -⟩ := read_ahead_ok h
    exact Node.children_nil t Q
  | form x => exact henter x p ns q h

theorem makers_any (rs : List (Rule N)) {m : Rule N} (h : m ∈ (any rs).makers t) :
    ∃ r ∈ rs, m ∈ r.makers t := by
  induction rs with
  | nil => cases h
  | cons r rs ih =>
    cases rs with
    | nil => exact ⟨r, List.mem_cons_self, h⟩
    | cons r' rs =>
      rcases List.mem_append.mp h with h | h
      · exact ⟨r, List.mem_cons_self, h⟩
      · obtain ⟨r'', hr, h⟩ := ih h
        exact ⟨r'', List.mem_cons_of_mem _ hr, h⟩

end Rule

/-- The makers of a grammar decide what children all nodes of a type have. -/
theorem Grammar.forall_read {g : Grammar N} (ht : t ≠ .comment)
    (hg : ∀ n x, ∀ m ∈ (g x).makers t, m.Makes (g.read n) t Q) (n : Nat) (x : N) (p : Place)
    (ns : List Node) (q : Place) (h : g.read n x p = .ok (ns, q)) : Children t Q ns := by
  induction n generalizing x p ns q with
  | zero => cases h
  | succ n ih => exact Rule.forall_read ht ih (hg n x) (Node.children_nil t Q) h

/-- The makers of the rules of the language decide what children the nodes of a type have in
the tree of a program. -/
theorem forall_of_parseChars {d : Dialect} {cs : List Char} {tree : Node} (ht : t ≠ .comment)
    (hprogram : t ≠ .program)
    (hmakers : ∀ n x, ∀ m ∈ (programs d x).makers t, m.Makes ((programs d).read n) t Q)
    (h : d.parseChars cs = .ok tree) : ∀ n ∈ tree.preorder, n.is t → Q n.children := by
  obtain ⟨ns, hread, rfl⟩ := readProgram_of_parseChars h
  have hchildren : Children t Q ns := by
    unfold readProgram at hread
    dsimp only at hread
    split at hread
    · cases hread
    · next hstatements =>
      split at hread
      · obtain rfl := Except.ok.inj hread
        exact (Grammar.forall_read ht hmakers _ _ _ _ _ hstatements).append
          (Rule.children_skipGaps ht _ _)
      · cases hread
  intro n hn his
  rcases Node.mem_preorder.mp hn with rfl | ⟨c, hc, hn⟩
  · simp only [Node.is, Node.kind, decide_eq_true_eq, Kind.named.injEq] at his
    exact absurd his.symm hprogram
  · exact hchildren n (Node.mem_preorderAll.mpr ⟨c, hc, hn⟩) his

end Retarget.Syntax
