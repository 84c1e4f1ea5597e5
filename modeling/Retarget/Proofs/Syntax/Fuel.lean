import Retarget.Proofs.Syntax.Scanning

/-!
# Fuel is enough

Every form that is entered costs a unit of fuel.  A form that is entered before any
character was taken has a lower rank than the form it is part of (`Guarded`), so the forms
that are entered in a row without taking a character are few.  `scan_eq_of_le` proves that
from a bound on, which depends on the length of the text, the amount of fuel does not
matter.  `Grammar.accept` is scanning with that much fuel; it satisfies the equations of
the grammar.
-/

namespace Retarget.Syntax

variable {N : Type} {cs r : List Char} {k : Option Kind}

/-- A scan that takes at least one character where it fits. -/
def Takes (s : Scan) : Prop :=
  ∀ cs n, s cs = some n → (cs.drop n).length < cs.length

/-- A way to scan forms that never makes a text longer. -/
def Shortens (enter : N → List Char → Remnant) : Prop :=
  ∀ x cs k r, enter x cs = some (k, r) → r.length ≤ cs.length

namespace Rule

/-- A rule that takes at least one character where it fits, given the forms that do. -/
@[simp]
def Moves (moving : N → Prop) : Rule N → Prop
  | nothing => False
  | never => True
  | lexeme _ s => Takes s
  | glued _ s => Takes s
  | where_ _ => False
  | then_ a b => a.Moves moving ∨ b.Moves moving
  | or_ a b => a.Moves moving ∧ b.Moves moving
  | many _ => False
  | node _ a => a.Moves moving
  | role _ a => a.Moves moving
  | grow a _ => a.Moves moving
  | around _ _ a => a.Moves moving
  | after _ => False
  | «unless» _ => False
  | ahead _ => False
  | form x => moving x

/-- A rule that enters only forms below a rank before it takes a character. -/
@[simp]
def Guarded (moving : N → Prop) (rank : N → Nat) (n : Nat) : Rule N → Prop
  | nothing => True
  | never => True
  | lexeme _ _ => True
  | glued _ _ => True
  | where_ _ => True
  | then_ a b => a.Guarded moving rank n ∧ (a.Moves moving ∨ b.Guarded moving rank n)
  | or_ a b => a.Guarded moving rank n ∧ b.Guarded moving rank n
  | many a => a.Guarded moving rank n
  | node _ a => a.Guarded moving rank n
  | role _ a => a.Guarded moving rank n
  | grow a s => a.Guarded moving rank n ∧ (a.Moves moving ∨ s.Guarded moving rank n)
  | around _ _ a => a.Guarded moving rank n
  | after _ => True
  | «unless» a => a.Guarded moving rank n
  | ahead a => a.Guarded moving rank n
  | form x => rank x < n

/-! ## Scanning makes texts shorter -/

variable {enter : N → List Char → Remnant} {moving : N → Prop}

theorem length_scanMany_le {scan : List Char → Remnant} (n : Nat) (cs : List Char) :
    (scanMany scan n cs).2.length ≤ cs.length := by
  induction n generalizing cs with
  | zero => exact Nat.le_refl _
  | succ n ih =>
    unfold scanMany
    split
    · exact Nat.le_refl _
    · split
      · next hlt => exact Nat.le_of_lt (Nat.lt_of_le_of_lt (ih _) hlt)
      · exact Nat.le_refl _

theorem length_scanGrow_le {step : Option Kind → List Char → Remnant} (n : Nat)
    (k : Option Kind) (cs : List Char) : (scanGrow step n k cs).2.length ≤ cs.length := by
  induction n generalizing k cs with
  | zero => exact Nat.le_refl _
  | succ n ih =>
    unfold scanGrow
    split
    · exact Nat.le_refl _
    · split
      · next hlt => exact Nat.le_of_lt (Nat.lt_of_le_of_lt (ih _ _) hlt)
      · exact Nat.le_refl _

/-- No rule makes a text longer. -/
theorem length_scan_le (henter : Shortens enter) (a : Rule N) (left : Option Kind)
    (h : a.scan enter left cs = some (k, r)) : r.length ≤ cs.length := by
  induction a generalizing cs left k r with
  | nothing =>
    obtain ⟨-, rfl⟩ := by simpa [scan] using h
    exact Nat.le_refl _
  | never => cases h
  | lexeme t s =>
    obtain ⟨n, -, -, rfl⟩ := by simpa [scan] using h
    have hle := Lexeme.length_skip_le cs
    rw [List.length_drop]
    omega
  | glued t s =>
    obtain ⟨n, -, -, rfl⟩ := by simpa [scan] using h
    simp
  | where_ test => exact Nat.le_of_eq (congrArg List.length (scan_where_some h))
  | then_ a b iha ihb =>
    obtain ⟨l, m, r', hfirst, hsecond⟩ := scan_then_some h
    exact Nat.le_trans (ihb _ hsecond) (iha _ hfirst)
  | or_ a b iha ihb => exact (scan_or_some h).elim (iha _) (ihb _)
  | many a _ =>
    rw [scan_many_some h]
    exact length_scanMany_le _ _
  | node t a iha => exact (scan_node_some h).elim fun _ hinner => iha _ hinner
  | role f a iha => exact iha _ h
  | grow a s iha _ =>
    obtain ⟨l, r', hbase, rfl⟩ := scan_grow_some h
    exact Nat.le_trans (length_scanGrow_le _ _ _) (iha _ hbase)
  | around t f a iha => exact (scan_around_some h).elim fun _ hinner => iha _ hinner
  | after test => exact Nat.le_of_eq (congrArg List.length (scan_after_some h))
  | «unless» a _ => exact Nat.le_of_eq (congrArg List.length (scan_unless_some h))
  | ahead a _ => exact Nat.le_of_eq (congrArg List.length (scan_ahead_some h).1)
  | form x => exact henter _ _ _ _ h

/-- A rule that moves makes a text shorter. -/
theorem length_scan_lt (henter : Shortens enter)
    (hmoving : ∀ x, moving x → ∀ cs k r, enter x cs = some (k, r) → r.length < cs.length)
    {a : Rule N} (ha : a.Moves moving) {left : Option Kind}
    (h : a.scan enter left cs = some (k, r)) : r.length < cs.length := by
  induction a generalizing cs left k r with
  | never => cases h
  | lexeme t s =>
    obtain ⟨n, hs, -, rfl⟩ := by simpa [scan] using h
    exact Nat.lt_of_lt_of_le (ha _ _ hs) (Lexeme.length_skip_le _)
  | glued t s =>
    obtain ⟨n, hs, -, rfl⟩ := by simpa [scan] using h
    exact ha _ _ hs
  | then_ a b iha ihb =>
    obtain ⟨l, m, r', hfirst, hsecond⟩ := scan_then_some h
    rcases ha with ha | hb
    · exact Nat.lt_of_le_of_lt (length_scan_le henter b _ hsecond) (iha ha hfirst)
    · exact Nat.lt_of_lt_of_le (ihb hb hsecond) (length_scan_le henter a _ hfirst)
  | or_ a b iha ihb => exact (scan_or_some h).elim (iha ha.1) (ihb ha.2)
  | node t a iha => exact (scan_node_some h).elim fun _ hinner => iha ha hinner
  | role f a iha => exact iha ha h
  | grow a s iha _ =>
    obtain ⟨l, r', hbase, rfl⟩ := scan_grow_some h
    exact Nat.lt_of_le_of_lt (length_scanGrow_le _ _ _) (iha ha hbase)
  | around t f a iha => exact (scan_around_some h).elim fun _ hinner => iha ha hinner
  | form x => exact hmoving _ ha _ _ _ h
  | nothing => cases ha
  | where_ test => cases ha
  | many a _ => cases ha
  | after test => cases ha
  | «unless» a _ => cases ha
  | ahead a _ => cases ha

/-! ## What scanning depends on -/

theorem scanMany_congr {f g : List Char → Remnant} {bound : Nat}
    (h : ∀ cs : List Char, cs.length ≤ bound → f cs = g cs) (n : Nat) (hcs : cs.length ≤ bound) :
    scanMany f n cs = scanMany g n cs := by
  induction n generalizing cs with
  | zero => rfl
  | succ n ih =>
    unfold scanMany
    rw [h cs hcs]
    cases g cs with
    | none => rfl
    | some x =>
      by_cases hlt : x.2.length < cs.length
      · simp only [if_pos hlt, ih (Nat.le_of_lt (Nat.lt_of_lt_of_le hlt hcs))]
      · simp only [if_neg hlt]

theorem scanGrow_congr {f g : Option Kind → List Char → Remnant} {bound : Nat}
    (h : ∀ k (cs : List Char), cs.length ≤ bound → f k cs = g k cs) (n : Nat) (k : Option Kind)
    (hcs : cs.length ≤ bound) : scanGrow f n k cs = scanGrow g n k cs := by
  induction n generalizing k cs with
  | zero => rfl
  | succ n ih =>
    unfold scanGrow
    rw [h k cs hcs]
    cases g k cs with
    | none => rfl
    | some x =>
      by_cases hlt : x.2.length < cs.length
      · simp only [if_pos hlt, ih _ (Nat.le_of_lt (Nat.lt_of_lt_of_le hlt hcs))]
      · simp only [if_neg hlt]

/-- Every rule is guarded by a rank above all forms. -/
theorem guarded_of_lt {rank : N → Nat} {n : Nat} (h : ∀ x, rank x < n) (a : Rule N) :
    a.Guarded moving rank n := by
  induction a with
  | nothing => trivial
  | never => trivial
  | lexeme _ _ => trivial
  | glued _ _ => trivial
  | where_ _ => trivial
  | then_ a b iha ihb => exact ⟨iha, .inr ihb⟩
  | or_ a b iha ihb => exact ⟨iha, ihb⟩
  | many a iha => exact iha
  | node _ a iha => exact iha
  | role _ a iha => exact iha
  | grow a s iha ihs => exact ⟨iha, .inr ihs⟩
  | around _ _ a iha => exact iha
  | after _ => trivial
  | «unless» a iha => exact iha
  | ahead a iha => exact iha
  | form x => exact h x

/-- Two ways to scan forms that agree on texts below a length, and on forms below a rank for
texts of that length, too. -/
structure AgreeBelow (rank : N → Nat) (n bound : Nat) (e₁ e₂ : N → List Char → Remnant) : Prop where
  shorter : ∀ x (cs : List Char), cs.length < bound → e₁ x cs = e₂ x cs
  lower : ∀ x (cs : List Char), cs.length ≤ bound → rank x < n → e₁ x cs = e₂ x cs

theorem AgreeBelow.behind {e₁ e₂ : N → List Char → Remnant} {rank : N → Nat} {n m bound : Nat}
    (h : AgreeBelow rank n bound e₁ e₂) (hm : m < bound) :
    AgreeBelow (fun _ => 0) 1 m e₁ e₂ :=
  ⟨fun x cs hcs => h.shorter x cs (by omega), fun x cs hcs _ => h.shorter x cs (by omega)⟩

/-- A guarded rule asks for forms below its rank on the whole text, and for all forms on
shorter texts only. -/
theorem scan_congr {e₁ e₂ : N → List Char → Remnant} {rank : N → Nat} {n bound : Nat}
    (hshort : Shortens e₁)
    (hmoving : ∀ x, moving x → ∀ cs k r, e₁ x cs = some (k, r) → r.length < cs.length)
    (h : AgreeBelow rank n bound e₁ e₂) {a : Rule N} (ha : a.Guarded moving rank n)
    (left : Option Kind) (hcs : cs.length ≤ bound) : a.scan e₁ left cs = a.scan e₂ left cs := by
  induction a generalizing rank n bound left cs with
  | nothing => rfl
  | never => rfl
  | lexeme _ _ => rfl
  | glued _ _ => rfl
  | where_ _ => rfl
  | then_ a b iha ihb =>
    unfold scan
    rw [← iha h ha.1 left hcs]
    cases hfirst : a.scan e₁ left cs with
    | none => rfl
    | some x =>
      have hle := length_scan_le hshort a left hfirst
      dsimp only
      rcases ha.2 with hmoves | hb
      · have hbehind := h.behind (Nat.lt_of_lt_of_le (length_scan_lt hshort hmoving hmoves hfirst) hcs)
        rw [ihb hbehind (guarded_of_lt (fun _ => Nat.zero_lt_one) b) left (Nat.le_refl _)]
      · rw [ihb h hb left (Nat.le_trans hle hcs)]
  | or_ a b iha ihb =>
    unfold scan
    rw [iha h ha.1 left hcs, ihb h ha.2 left hcs]
  | many a iha =>
    unfold scan
    rw [scanMany_congr (fun cs hcs => iha h ha left hcs) _ hcs]
  | node t a iha =>
    unfold scan
    rw [iha h ha left hcs]
  | role f a iha => exact iha h ha left hcs
  | grow a s iha ihs =>
    unfold scan
    rw [← iha h ha.1 left hcs]
    cases hbase : a.scan e₁ left cs with
    | none => rfl
    | some x =>
      have hle := length_scan_le hshort a left hbase
      simp only [Option.map_some]
      rcases ha.2 with hmoves | hs
      · have hbehind := h.behind (Nat.lt_of_lt_of_le (length_scan_lt hshort hmoving hmoves hbase) hcs)
        rw [scanGrow_congr (fun k cs hcs => ihs hbehind
          (guarded_of_lt (fun _ => Nat.zero_lt_one) s) k hcs) _ _ (Nat.le_refl _)]
      · rw [scanGrow_congr (fun k cs hcs => ihs h hs k hcs) _ _ (Nat.le_trans hle hcs)]
  | around t f a iha =>
    unfold scan
    rw [iha h ha left hcs]
  | after _ => rfl
  | «unless» a iha =>
    unfold scan
    rw [iha h ha left hcs]
  | ahead a iha =>
    unfold scan
    rw [iha h ha left hcs]
  | form x => exact h.lower x cs hcs ha

end Rule

/-! ## Grammars -/

namespace Grammar

variable {g : Grammar N} {moving : N → Prop} {rank : N → Nat}

/-- A grammar whose forms do not enter each other in a circle before a character is
taken. -/
structure Ranked (g : Grammar N) (moving : N → Prop) (rank : N → Nat) : Prop where
  moves : ∀ x, moving x → (g x).Moves moving
  guarded : ∀ x, (g x).Guarded moving rank (rank x)
  small : ∀ x, rank x < 32

theorem shortens_scan (g : Grammar N) (n : Nat) : Shortens (g.scan n) := by
  induction n with
  | zero =>
    intro x cs k r h
    cases h
  | succ n ih =>
    intro x cs k r h
    exact Rule.length_scan_le ih (g x) none h

theorem Ranked.scan_lt (hg : g.Ranked moving rank) (n : Nat) (x : N) (hx : moving x)
    (cs : List Char) (k : Option Kind) (r : List Char) (h : g.scan n x cs = some (k, r)) :
    r.length < cs.length := by
  induction n generalizing x cs k r with
  | zero => cases h
  | succ n ih => exact Rule.length_scan_lt (g.shortens_scan n) ih (hg.moves x hx) h

/-- From a bound on, the amount of fuel does not matter. -/
theorem Ranked.scan_eq_of_le (hg : g.Ranked moving rank) {n m : Nat} {x : N}
    (hn : 32 * cs.length + rank x < n) (hm : 32 * cs.length + rank x < m) :
    g.scan n x cs = g.scan m x cs := by
  induction n generalizing m x cs with
  | zero => omega
  | succ n ih =>
    cases m with
    | zero => omega
    | succ m =>
      refine Rule.scan_congr (g.shortens_scan n) (hg.scan_lt n) ⟨?_, ?_⟩ (hg.guarded x) none
        (Nat.le_refl _)
      · intro y ds hds
        have hy := hg.small y
        exact ih (by omega) (by omega)
      · intro y ds hds hy
        exact ih (by omega) (by omega)

/-- Scans a form with as much fuel as it may need. -/
def accept (g : Grammar N) (x : N) (cs : List Char) : Remnant :=
  g.scan (32 * cs.length + 32) x cs

theorem Ranked.scan_eq_accept (hg : g.Ranked moving rank) {n : Nat} {x : N}
    (hn : 32 * cs.length + rank x < n) : g.scan n x cs = g.accept x cs := by
  have hx := hg.small x
  exact hg.scan_eq_of_le hn (by omega)

theorem shortens_accept (g : Grammar N) : Shortens g.accept :=
  fun x cs k r h => g.shortens_scan _ x cs k r h

/-- A form is accepted as its rule says. -/
theorem Ranked.accept_eq (hg : g.Ranked moving rank) (x : N) (cs : List Char) :
    g.accept x cs = (g x).scan g.accept none cs := by
  have hx := hg.small x
  refine Rule.scan_congr (g.shortens_scan _) (hg.scan_lt _) ⟨?_, ?_⟩ (hg.guarded x) none
    (Nat.le_refl _)
  · intro y ds hds
    have hy := hg.small y
    exact hg.scan_eq_accept (by omega)
  · intro y ds hds hy
    exact hg.scan_eq_accept (by omega)

end Grammar

end Retarget.Syntax
