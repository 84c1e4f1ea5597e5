import Retarget.Text.Blank

/-!
# Quoted text in messages

`Text.quoted` writes a text in double quotes for somebody who reads a message:
what cannot be seen there is spelled by its code point.
-/

namespace Retarget.Text

/-- Code points that cannot be seen by themselves, as closed ranges: controls,
format characters, marks that combine with the character before them, and those
of private use. -/
def unseenRanges : List (Nat × Nat) :=
  [(0x00, 0x1F), (0x7F, 0x9F), (0xAD, 0xAD), (0x300, 0x36F), (0x483, 0x489), (0x591, 0x5BD),
   (0x600, 0x605), (0x610, 0x61A), (0x61C, 0x61C), (0x64B, 0x65F), (0x6DD, 0x6DD),
   (0x70F, 0x70F), (0x180B, 0x180F), (0x1AB0, 0x1ACE), (0x1DC0, 0x1DFF), (0x200B, 0x200F),
   (0x202A, 0x202E), (0x2060, 0x206F), (0x20D0, 0x20F0), (0x302A, 0x302D), (0x3099, 0x309A),
   (0xE000, 0xF8FF), (0xFE00, 0xFE0F), (0xFE20, 0xFE2F), (0xFEFF, 0xFEFF), (0xFFF0, 0xFFFB),
   (0xFFFE, 0xFFFF), (0xE0001, 0x10FFFF)]

/-- Whether a character cannot be seen by itself. -/
def isUnseen (c : Char) : Bool :=
  (isBlank c && c ≠ ' ') || unseenRanges.any fun r => r.1 ≤ c.toNat && c.toNat ≤ r.2

/-- The spelling of a character between double quotes. -/
def quotedChar (c : Char) : List Char :=
  match c with
  | '\x00' => ['\\', '0']
  | '\t' => ['\\', 't']
  | '\n' => ['\\', 'n']
  | '\r' => ['\\', 'r']
  | '"' => ['\\', '"']
  | '\\' => ['\\', '\\']
  | _ =>
    if isUnseen c then '\\' :: 'u' :: '\x7b' :: Nat.toDigits 16 c.toNat ++ ['\x7d'] else [c]

/-- A text in double quotes. -/
def quoted (s : String) : String :=
  "\"" ++ String.ofList (s.toList.flatMap quotedChar) ++ "\""

/-- A text of plain characters is quoted as it stands. -/
theorem quoted_of_plain {s : String} (h : ∀ c ∈ s.toList, quotedChar c = [c]) :
    quoted s = "\"" ++ s ++ "\"" := by
  have all : ∀ cs : List Char, (∀ c ∈ cs, quotedChar c = [c]) → cs.flatMap quotedChar = cs := by
    intro cs
    induction cs with
    | nil => simp
    | cons c cs ih =>
      intro hcs
      have rest := ih fun x hx => hcs x (List.mem_cons_of_mem _ hx)
      simp [hcs c (List.mem_cons_self ..), rest]
  simp [quoted, all _ h]

end Retarget.Text
