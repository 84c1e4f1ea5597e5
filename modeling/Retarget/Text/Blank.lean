/-!
# Blank characters

The white space of a text: `isBlank` is the Unicode property `White_Space`.
Trimming and splitting into words follow it, and lines end at a line feed.
-/

namespace Retarget.Text

/-- The code points with the property `White_Space`, as closed ranges. -/
def blankRanges : List (Nat × Nat) :=
  [(0x09, 0x0D), (0x20, 0x20), (0x85, 0x85), (0xA0, 0xA0), (0x1680, 0x1680),
   (0x2000, 0x200A), (0x2028, 0x2029), (0x202F, 0x202F), (0x205F, 0x205F),
   (0x3000, 0x3000)]

/-- Whether a character is white space. -/
def isBlank (c : Char) : Bool :=
  if c.toNat < 0x80 then c.toNat == 0x20 || (0x09 ≤ c.toNat && c.toNat ≤ 0x0D)
  else blankRanges.any fun r => r.1 ≤ c.toNat && c.toNat ≤ r.2

/-- The text without the blanks at its start. -/
def trimStart (cs : List Char) : List Char :=
  cs.dropWhile isBlank

/-- The text without the blanks at its end. -/
def trimEnd (cs : List Char) : List Char :=
  (cs.reverse.dropWhile isBlank).reverse

/-- The text without the blanks at either end. -/
def trim (s : String) : String :=
  String.ofList (trimEnd (trimStart s.toList))

/-- The pieces of a text between the characters that pass `p`. -/
def splitAtAll (p : Char → Bool) : List Char → List (List Char)
  | [] => [[]]
  | c :: r =>
    if p c then [] :: splitAtAll p r
    else match splitAtAll p r with
      | [] => [[c]]
      | w :: ws => (c :: w) :: ws

/-- The words of a text: its longest runs without a blank. -/
def words (s : String) : List String :=
  ((splitAtAll isBlank s.toList).filter (· ≠ [])).map String.ofList

/-- Drops one trailing carriage return. -/
def dropReturn (cs : List Char) : List Char :=
  if cs.getLast? = some '\r' then cs.dropLast else cs

/-- The lines of a text without their line ends; a final line end closes the
last line and opens none. -/
def lines (s : String) : List String :=
  let pieces := splitAtAll (· == '\n') s.toList
  let kept := if pieces.getLast? = some [] then pieces.dropLast else pieces
  match kept.reverse with
  | [] => []
  | final :: before =>
    let closed := before.reverse.map fun l => String.ofList (dropReturn l)
    let open? := pieces.getLast? ≠ some []
    closed ++ [String.ofList (if open? then final else dropReturn final)]

/-- Splitting loses nothing but the separators: there is one piece more than
there are of them. -/
theorem length_splitAtAll (p : Char → Bool) (cs : List Char) :
    (splitAtAll p cs).length = cs.countP p + 1 := by
  induction cs with
  | nil => rfl
  | cons c r ih =>
    by_cases h : p c
    · simp [splitAtAll, h, ih]
    · simp only [splitAtAll, h, Bool.false_eq_true, if_false]
      cases hs : splitAtAll p r with
      | nil => simp [hs] at ih
      | cons w ws => simpa [hs, h] using ih

/-- No word holds a blank where it was split. -/
theorem not_mem_of_mem_splitAtAll {p : Char → Bool} {cs w : List Char} {c : Char}
    (hw : w ∈ splitAtAll p cs) (hc : c ∈ w) : p c = false := by
  induction cs generalizing w with
  | nil => simp [splitAtAll] at hw; simp [hw] at hc
  | cons d r ih =>
    by_cases h : p d
    · simp only [splitAtAll, h, if_true, List.mem_cons] at hw
      rcases hw with rfl | hw
      · simp at hc
      · exact ih hw hc
    · simp only [splitAtAll, h, Bool.false_eq_true, if_false] at hw
      cases hs : splitAtAll p r with
      | nil =>
        rw [hs] at hw
        simp at hw
        subst hw
        simp at hc
        subst hc
        simpa using h
      | cons v vs =>
        rw [hs] at hw
        simp only [List.mem_cons] at hw
        rcases hw with rfl | hw
        · rcases List.mem_cons.1 hc with rfl | hc
          · simpa using h
          · exact ih (by simp [hs]) hc
        · exact ih (by simp [hs, hw]) hc

end Retarget.Text
