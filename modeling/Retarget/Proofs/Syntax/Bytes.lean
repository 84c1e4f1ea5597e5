import Retarget.Language

/-!
# Bytes of a text

Trees count bytes, texts hold characters.  `Place.bytes` counts the bytes of a text, and
`sliceChars` takes a stretch out by its first byte and the byte behind it.  Between the
bytes of two of its parts it gives the part in the middle.
-/

namespace Retarget.Syntax

open Place (bytes)

variable {a b c : List Char} {i j : Nat}

theorem bytes_nil : bytes [] = 0 :=
  rfl

theorem bytes_cons (x : Char) (cs : List Char) : bytes (x :: cs) = x.utf8Size + bytes cs := by
  have shift (n : Nat) (cs : List Char) :
      cs.foldl (fun n c => n + c.utf8Size) n = n + bytes cs := by
    unfold bytes
    induction cs generalizing n with
    | nil => rfl
    | cons y cs ih =>
      rw [List.foldl_cons, List.foldl_cons, ih, ih (0 + _)]
      omega
  have hcons : bytes (x :: cs) = cs.foldl (fun n c => n + c.utf8Size) (0 + x.utf8Size) := rfl
  rw [hcons, shift]
  omega

theorem bytes_append (a b : List Char) : bytes (a ++ b) = bytes a + bytes b := by
  induction a with
  | nil => simp [bytes_nil]
  | cons x a ih =>
    rw [List.cons_append, bytes_cons, bytes_cons, ih]
    omega

theorem eq_nil_of_bytes_eq_zero (h : bytes a = 0) : a = [] := by
  cases a with
  | nil => rfl
  | cons x a =>
    have hx := x.utf8Size_pos
    rw [bytes_cons] at h
    omega

/-- Of two ways to cut a text in two, the shorter head is the beginning of the longer one. -/
theorem exists_append_of_bytes_le {d : List Char} (h : a ++ b = c ++ d)
    (hle : bytes a ≤ bytes c) : ∃ e, c = a ++ e ∧ b = e ++ d := by
  rcases List.append_eq_append_iff.mp h with ⟨e, hc, hb⟩ | ⟨e, ha, hd⟩
  · exact ⟨e, hc, hb⟩
  · rw [ha, bytes_append] at hle
    obtain rfl := eq_nil_of_bytes_eq_zero (a := e) (by omega)
    exact ⟨[], by simpa using ha.symm, by simpa using hd.symm⟩

/-- The same byte cuts a text in one way only. -/
theorem append_inj_of_bytes_eq {d : List Char} (h : a ++ b = c ++ d) (he : bytes a = bytes c) :
    a = c ∧ b = d := by
  obtain ⟨e, hc, hb⟩ := exists_append_of_bytes_le h (Nat.le_of_eq he)
  rw [hc, bytes_append] at he
  obtain rfl := eq_nil_of_bytes_eq_zero (a := e) (by omega)
  exact ⟨by simpa using hc.symm, by simpa using hb⟩

/-! ## Slices -/

/-- Places behind a part of a text are counted from that part. -/
theorem sliceChars_append (a b : List Char) (i j : Nat) :
    sliceChars (a ++ b) (bytes a + i) (bytes a + j) = sliceChars b i j := by
  induction a with
  | nil => simp [bytes_nil]
  | cons x a ih =>
    have hx := x.utf8Size_pos
    rw [List.cons_append, bytes_cons, sliceChars, if_neg (by omega), if_neg (by omega), ← ih]
    congr 1
    · omega
    · omega

theorem sliceChars_head (a b : List Char) : sliceChars (a ++ b) 0 (bytes a) = a := by
  induction a with
  | nil =>
    rw [bytes_nil]
    cases b with
    | nil => rfl
    | cons x b => rfl
  | cons x a ih =>
    have hx := x.utf8Size_pos
    rw [List.cons_append, bytes_cons, sliceChars, if_neg (by omega), if_pos rfl,
      Nat.add_sub_cancel_left, ih]

/-- The stretch between two parts of a text. -/
theorem sliceChars_middle (a b c : List Char) (hi : i = bytes a) (hj : j = bytes a + bytes b) :
    sliceChars (a ++ b ++ c) i j = b := by
  have hslice := sliceChars_append a (b ++ c) 0 (bytes b)
  rw [hi, hj, List.append_assoc]
  rw [Nat.add_zero] at hslice
  rw [hslice, sliceChars_head]

theorem sliceChars_tail (a b : List Char) :
    sliceChars (a ++ b) (bytes a) (bytes (a ++ b)) = b := by
  have hmiddle := sliceChars_middle a b [] rfl (bytes_append a b)
  rwa [List.append_nil] at hmiddle

/-! ## Cuts -/

/-- A byte at which a text can be cut in two. -/
def Cut (cs : List Char) (n : Nat) : Prop :=
  ∃ a b, cs = a ++ b ∧ bytes a = n

theorem cut_zero (cs : List Char) : Cut cs 0 :=
  ⟨[], cs, rfl, rfl⟩

theorem cut_bytes (cs : List Char) : Cut cs (bytes cs) :=
  ⟨cs, [], (List.append_nil cs).symm, rfl⟩

/-- Two cuts leave three parts. -/
theorem Cut.between {cs : List Char} (hi : Cut cs i) (hj : Cut cs j) (hle : i ≤ j) :
    ∃ a b c, cs = a ++ b ++ c ∧ i = bytes a ∧ j = bytes a + bytes b := by
  obtain ⟨a, r, rfl, rfl⟩ := hi
  obtain ⟨a', c, h, rfl⟩ := hj
  obtain ⟨b, rfl, rfl⟩ := exists_append_of_bytes_le h hle
  exact ⟨a, b, c, by rw [List.append_assoc], rfl, bytes_append a b⟩

end Retarget.Syntax
