import Retarget.Proofs.Syntax.Bytes

/-!
# Trees over a text

`Node.Placed` says that a tree lies over a text as trees of programs do: every node
starts and stops between two characters, the children of a node stand within it one
behind the other, and a string has no string inside.  So two strings of a tree are the
same stretch of the text, or one stands behind the other.
-/

namespace Retarget.Syntax

namespace Node

/-- What holds of a node if it holds of its children holds of all nodes. -/
theorem induction {P : Node → Prop}
    (h : ∀ k f a b ns, (∀ n ∈ ns, P n) → P (mk k f a b ns)) (n : Node) : P n :=
  Node.rec (motive_1 := P) (motive_2 := fun ns => ∀ n ∈ ns, P n) h
    (fun _ hn => by cases hn)
    (fun n ns hn hns x hx => by
      rcases List.mem_cons.mp hx with rfl | hx
      · exact hn
      · exact hns x hx) n

mutual

/-- A tree that lies over a text. -/
def Placed (cs : List Char) : Node → Prop
  | mk k _ a b ns => Cut cs a ∧ Cut cs b ∧ a ≤ b ∧ Row cs a ns b ∧
      (k = .named .string → ∀ n ∈ ns, n.children = [] ∧ n.kind ≠ .named .string)

/-- Trees that stand one behind the other between two bytes. -/
def Row (cs : List Char) : Nat → List Node → Nat → Prop
  | lo, [], hi => lo ≤ hi
  | lo, n :: ns, hi => lo ≤ n.start ∧ n.Placed cs ∧ Row cs n.stop ns hi

end

variable {cs : List Char} {n m : Node} {ns ms : List Node} {lo mid hi : Nat}

theorem Placed.start_cut (h : n.Placed cs) : Cut cs n.start := by
  obtain ⟨k, f, a, b, ns⟩ := n
  exact h.1

theorem Placed.stop_cut (h : n.Placed cs) : Cut cs n.stop := by
  obtain ⟨k, f, a, b, ns⟩ := n
  exact h.2.1

theorem Placed.start_le_stop (h : n.Placed cs) : n.start ≤ n.stop := by
  obtain ⟨k, f, a, b, ns⟩ := n
  exact h.2.2.1

theorem Placed.children (h : n.Placed cs) : Row cs n.start n.children n.stop := by
  obtain ⟨k, f, a, b, ns⟩ := n
  exact h.2.2.2.1

/-- A string has no string inside. -/
theorem Placed.flat (h : n.Placed cs) (hn : n.kind = .named .string) :
    ∀ m ∈ n.children, m.children = [] ∧ m.kind ≠ .named .string := by
  obtain ⟨k, f, a, b, ns⟩ := n
  exact h.2.2.2.2 hn

theorem Placed.withField (h : n.Placed cs) (f : Field) : (n.withField f).Placed cs := by
  obtain ⟨k, g, a, b, ns⟩ := n
  exact h

/-! ## Rows -/

theorem row_le (h : Row cs lo ns hi) : lo ≤ hi := by
  induction ns generalizing lo with
  | nil => exact h
  | cons n ns ih =>
    obtain ⟨hlo, hn, hns⟩ := h
    have hle := hn.start_le_stop
    have hrest := ih hns
    omega

theorem row_of_ge (h : Row cs mid ns hi) (hle : lo ≤ mid) : Row cs lo ns hi := by
  cases ns with
  | nil => exact Nat.le_trans hle h
  | cons n ns => exact ⟨Nat.le_trans hle h.1, h.2⟩

theorem row_append (h : Row cs lo ns mid) (h' : Row cs mid ms hi) :
    Row cs lo (ns ++ ms) hi := by
  induction ns generalizing lo with
  | nil => exact row_of_ge h' h
  | cons n ns ih => exact ⟨h.1, h.2.1, ih h.2.2⟩

/-- What stands before a node of a row stops where it starts. -/
theorem row_split (h : Row cs lo (ns ++ n :: ms) hi) :
    Row cs lo ns n.start ∧ n.Placed cs ∧ Row cs n.stop ms hi := by
  induction ns generalizing lo with
  | nil => exact h
  | cons k ns ih =>
    obtain ⟨hns, hrest⟩ := ih h.2.2
    exact ⟨⟨h.1, h.2.1, hns⟩, hrest⟩

theorem row_of_mem (h : Row cs lo ns hi) (hn : n ∈ ns) :
    lo ≤ n.start ∧ n.Placed cs ∧ n.stop ≤ hi := by
  obtain ⟨before, after, rfl⟩ := List.append_of_mem hn
  obtain ⟨hbefore, hplaced, hafter⟩ := row_split h
  exact ⟨row_le hbefore, hplaced, row_le hafter⟩

/-- Of two nodes of a row the first stops before the second starts. -/
theorem pairwise_of_row (h : Row cs lo ns hi) : ns.Pairwise fun a b => a.stop ≤ b.start := by
  induction ns generalizing lo with
  | nil => exact List.Pairwise.nil
  | cons n ns ih =>
    obtain ⟨-, -, hns⟩ := h
    apply List.Pairwise.cons
    · intro m hm
      exact (row_of_mem hns hm).1
    · exact ih hns

/-- Roles do not matter for where nodes stand. -/
theorem row_map (h : Row cs lo ns hi) {g : Node → Node}
    (hg : ∀ n, (g n).start = n.start ∧ (g n).stop = n.stop ∧ (n.Placed cs → (g n).Placed cs)) :
    Row cs lo (ns.map g) hi := by
  induction ns generalizing lo with
  | nil => exact h
  | cons n ns ih =>
    obtain ⟨hstart, hstop, hplaced⟩ := hg n
    refine ⟨by rw [hstart]; exact h.1, hplaced h.2.1, ?_⟩
    rw [hstop]
    exact ih h.2.2

/-! ## Nodes below a node -/

theorem mem_preorderAll : n ∈ preorderAll ns ↔ ∃ m ∈ ns, n ∈ m.preorder := by
  induction ns with
  | nil => simp [preorderAll]
  | cons m ns ih => simp [preorderAll, ih]

theorem mem_preorder : n ∈ m.preorder ↔ n = m ∨ ∃ k ∈ m.children, n ∈ k.preorder := by
  obtain ⟨k, f, a, b, ns⟩ := m
  rw [preorder, List.mem_cons, mem_preorderAll]
  rfl

theorem mem_preorder_of_child {t : Node} (h : m ∈ t.preorder) (hn : n ∈ m.children) :
    n ∈ t.preorder := by
  induction t using Node.induction with
  | h k f a b ns ih =>
    rcases mem_preorder.mp h with rfl | ⟨c, hc, hm⟩
    · exact mem_preorder.mpr (.inr ⟨n, hn, mem_preorder.mpr (.inl rfl)⟩)
    · exact mem_preorder.mpr (.inr ⟨c, hc, ih c hc hm⟩)

/-- A node below a placed one is placed and stands within it. -/
theorem Placed.below (h : m.Placed cs) (hn : n ∈ m.preorder) :
    n.Placed cs ∧ m.start ≤ n.start ∧ n.stop ≤ m.stop := by
  induction m using Node.induction with
  | h k f a b ns ih =>
    rcases mem_preorder.mp hn with rfl | ⟨c, hc, hn⟩
    · exact ⟨h, Nat.le_refl _, Nat.le_refl _⟩
    · obtain ⟨hlo, hplaced, hhi⟩ := row_of_mem h.children hc
      obtain ⟨hn, hstart, hstop⟩ := ih c hc hplaced hn
      exact ⟨hn, Nat.le_trans hlo hstart, Nat.le_trans hstop hhi⟩

/-- Two stretches of a text that are the same, or of which one is behind the other. -/
def Apart (n m : Node) : Prop :=
  n.start = m.start ∧ n.stop = m.stop ∨ n.stop ≤ m.start ∨ m.stop ≤ n.start

/-- Of nodes below different nodes of a row one stands behind the other. -/
theorem apart_of_row (h : Row cs lo ns hi) {p q : Node} (hp : p ∈ ns) (hq : q ∈ ns)
    (hn : n ∈ p.preorder) (hm : m ∈ q.preorder) (hsame : p = q → Apart n m) : Apart n m := by
  induction ns generalizing lo with
  | nil => cases hp
  | cons r ns ih =>
    obtain ⟨-, hr, hns⟩ := h
    have below : ∀ {x y z : Node}, x ∈ r.preorder → z ∈ ns → y ∈ z.preorder →
        x.stop ≤ y.start := by
      intro x y z hx hz hy
      obtain ⟨-, -, hstop⟩ := hr.below hx
      obtain ⟨hle, hplaced, -⟩ := row_of_mem hns hz
      obtain ⟨-, hstart, -⟩ := hplaced.below hy
      omega
    rcases List.mem_cons.mp hp with rfl | hp'
    · rcases List.mem_cons.mp hq with rfl | hq'
      · exact hsame rfl
      · exact .inr (.inl (below hn hq' hm))
    · rcases List.mem_cons.mp hq with rfl | hq'
      · exact .inr (.inr (below hm hp' hn))
      · exact ih hns hp' hq'

/-- Of two strings of a tree one stands behind the other, if they are not the same. -/
theorem Placed.strings_apart {t : Node} (h : t.Placed cs) (hn : n ∈ t.preorder)
    (hm : m ∈ t.preorder) (hns : n.kind = .named .string) (hms : m.kind = .named .string) :
    Apart n m := by
  induction t using Node.induction with
  | h k f a b ns ih =>
    -- there is no string below a string
    have outermost : ∀ {x : Node}, k = .named .string → ∀ c ∈ ns, x ∈ c.preorder →
        x.kind ≠ .named .string := by
      intro x hk c hc hx
      obtain ⟨hleaf, hkind⟩ := h.flat hk c hc
      rcases mem_preorder.mp hx with rfl | ⟨d, hd, -⟩
      · exact hkind
      · rw [hleaf] at hd
        cases hd
    rcases mem_preorder.mp hn with rfl | ⟨p, hp, hn⟩
    · rcases mem_preorder.mp hm with rfl | ⟨q, hq, hm⟩
      · exact .inl ⟨rfl, rfl⟩
      · exact absurd hms (outermost hns q hq hm)
    · rcases mem_preorder.mp hm with rfl | ⟨q, hq, hm⟩
      · exact absurd hns (outermost hms p hp hn)
      · refine apart_of_row h.children hp hq hn hm ?_
        rintro rfl
        exact ih p hp (row_of_mem h.children hp).2.1 hn hm

/-- A tree whose nodes are stretches of a text, with the children of a node one behind the other
within it. -/
def Nested (cs : List Char) (t : Node) : Prop :=
  ∀ n ∈ t.preorder, Cut cs n.start ∧ Cut cs n.stop ∧ n.start ≤ n.stop ∧
    (∀ c ∈ n.children, n.start ≤ c.start ∧ c.stop ≤ n.stop) ∧
    n.children.Pairwise fun a b => a.stop ≤ b.start

theorem Placed.nested (h : m.Placed cs) : m.Nested cs := by
  intro n hn
  obtain ⟨hplaced, -, -⟩ := h.below hn
  refine ⟨hplaced.start_cut, hplaced.stop_cut, hplaced.start_le_stop, ?_,
    pairwise_of_row hplaced.children⟩
  intro c hc
  obtain ⟨hstart, -, hstop⟩ := row_of_mem hplaced.children hc
  exact ⟨hstart, hstop⟩

end Node

end Retarget.Syntax
