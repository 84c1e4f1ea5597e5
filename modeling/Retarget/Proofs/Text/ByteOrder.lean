import Mathlib.Data.List.Lex
import Mathlib.Data.String.Basic
import Retarget.Text.Utf8

/-!
# The order of bytes

A later text has later bytes (`encode_lt_encode`), since the bytes of a character hold its digits
behind a mark that grows with their number (`encodeChar_digits`).  So whatever is sorted by
characters is sorted by bytes.
-/

namespace Retarget.Text

variable {c d : Char} {s t : String}

/-- The bytes of an array from an index on are listed behind those that were taken before. -/
theorem byteArray_loop_eq (bytes : ByteArray) (i : Nat) (taken : List UInt8) :
    ByteArray.toList.loop bytes i taken = taken.reverse ++ bytes.data.toList.drop i := by
  induction i, taken using ByteArray.toList.loop.induct bytes with
  | case1 i taken hmore ih =>
    have hi : i < bytes.data.toList.length := hmore
    have hbyte : bytes.get! i = bytes.data.toList[i] := getElem!_pos bytes.data i hmore
    rw [ByteArray.toList.loop, if_pos hmore, ih, List.reverse_cons, List.append_assoc, hbyte,
      List.singleton_append, ← List.drop_eq_getElem_cons hi]
  | case2 i taken hend =>
    have hi : bytes.data.toList.length ≤ i := Nat.le_of_not_lt hend
    rw [ByteArray.toList.loop, if_neg hend, List.drop_eq_nil_of_le hi, List.append_nil]

theorem encode_eq_flatMap (s : String) : encode s = s.toList.flatMap String.utf8EncodeChar := by
  have hbytes : s.toUTF8 = (s.toList.flatMap String.utf8EncodeChar).toByteArray :=
    String.utf8Encode_toList.symm
  rw [encode, hbytes, ByteArray.toList, byteArray_loop_eq, List.toList_data_toByteArray]
  rfl

/-- The bytes of a character hold its digits to the base 64, the first one with a mark that grows
with the number of digits. -/
theorem encodeChar_digits (c : Char) :
    (c.toNat < 128 ∧ String.utf8EncodeChar c = [UInt8.ofNat c.toNat]) ∨
      (∃ x y, c.toNat = 64 * x + y ∧ x < 32 ∧ y < 64 ∧ 128 ≤ c.toNat ∧
        String.utf8EncodeChar c = [x + 192, y + 128].map UInt8.ofNat) ∨
      (∃ x y z, c.toNat = 4096 * x + 64 * y + z ∧ x < 16 ∧ y < 64 ∧ z < 64 ∧ 2048 ≤ c.toNat ∧
        String.utf8EncodeChar c = [x + 224, y + 128, z + 128].map UInt8.ofNat) ∨
      ∃ x y z u, c.toNat = 262144 * x + 4096 * y + 64 * z + u ∧ x < 8 ∧ y < 64 ∧ z < 64 ∧
        u < 64 ∧ 65536 ≤ c.toNat ∧
        String.utf8EncodeChar c = [x + 240, y + 128, z + 128, u + 128].map UInt8.ofNat := by
  have hbound : c.toNat < 0x110000 := by
    have hvalid := c.valid
    simp only [UInt32.isValidChar, Nat.isValidChar] at hvalid
    unfold Char.toNat
    omega
  unfold String.utf8EncodeChar
  rw [show c.val.toNat = c.toNat from rfl]
  dsimp only
  generalize c.toNat = v at *
  split
  · exact .inl ⟨by omega, rfl⟩
  · right
    split
    · refine .inl ⟨v / 64 % 32, v % 64, ?_, ?_, ?_, ?_, rfl⟩
      all_goals omega
    · right
      split
      · refine .inl ⟨v / 4096 % 16, v / 64 % 64, v % 64, ?_, ?_, ?_, ?_, ?_, rfl⟩
        all_goals omega
      · refine .inr ⟨v / 262144 % 8, v / 4096 % 64, v / 64 % 64, v % 64, ?_⟩
        refine ⟨?_, ?_, ?_, ?_, ?_, ?_, rfl⟩
        all_goals omega

/-- A later character has later bytes, whatever follows. -/
theorem encodeChar_lt (h : c < d) (bs bs' : List UInt8) :
    String.utf8EncodeChar c ++ bs < String.utf8EncodeChar d ++ bs' := by
  have hval : c.toNat < d.toNat := h
  -- of two characters with as many digits, the first differing digit decides; else the marks do
  rcases encodeChar_digits c with ⟨_, hc⟩ | ⟨x, y, _, _, _, _, hc⟩ | ⟨x, y, z, _, _, _, _, _, hc⟩ |
    ⟨x, y, z, u, _, _, _, _, _, _, hc⟩ <;>
  rcases encodeChar_digits d with ⟨_, hd⟩ | ⟨x', y', _, _, _, _, hd⟩ |
    ⟨x', y', z', _, _, _, _, _, hd⟩ | ⟨x', y', z', u', _, _, _, _, _, _, hd⟩ <;>
  · simp only [hc, hd, List.map_cons, List.map_nil, List.cons_append, List.nil_append,
      List.cons_lt_cons_iff, UInt8.lt_iff_toNat_lt, ← UInt8.toNat_inj, UInt8.toNat_ofNat']
    omega

/-- A later text has later bytes. -/
theorem encode_lt_encode (h : s < t) : encode s < encode t := by
  rw [encode_eq_flatMap, encode_eq_flatMap]
  have hchars : s.toList < t.toList := String.lt_iff_toList_lt.mp h
  generalize s.toList = cs at hchars
  generalize t.toList = ds at hchars
  induction hchars with
  | @nil d ds =>
    obtain ⟨b, bs, hbytes⟩ := List.exists_cons_of_ne_nil (String.utf8EncodeChar_ne_nil (c := d))
    rw [List.flatMap_cons, hbytes]
    exact List.nil_lt_cons _ _
  | cons _ ih =>
    rw [List.flatMap_cons, List.flatMap_cons]
    exact List.append_left_lt ih
  | rel hlt =>
    rw [List.flatMap_cons, List.flatMap_cons]
    exact encodeChar_lt hlt _ _

end Retarget.Text
