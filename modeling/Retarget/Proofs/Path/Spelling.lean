import Retarget.Path

/-!
# The plainest spelling of a place

The location of a path is *well spelled*: its steps are read back from the way
they are written, and the root of all paths can only come first.  A well-spelled
location is the location of its own plainest spelling, so nothing is lost when a
location is handed on as a path.

`Location.marks_chars` says which steps the plainest spelling has and where each of
them ends.
-/

namespace Retarget

namespace Text

/-- A text without separators is one piece. -/
theorem splitAtAll_of_none {p : Char → Bool} {cs : List Char} (h : ∀ c ∈ cs, p c = false) :
    splitAtAll p cs = [cs] := by
  induction cs with
  | nil => rfl
  | cons c cs ih =>
    rw [splitAtAll, ih fun x hx => h x (List.mem_cons_of_mem _ hx)]
    simp [h c List.mem_cons_self]

/-- The piece before the first separator. -/
theorem splitAtAll_append_cons {p : Char → Bool} {w : List Char} {c : Char}
    (cs : List Char) (hw : ∀ x ∈ w, p x = false) (hc : p c = true) :
    splitAtAll p (w ++ c :: cs) = w :: splitAtAll p cs := by
  induction w with
  | nil => simp [splitAtAll, hc]
  | cons x w ih =>
    have hrest := ih fun y hy => hw y (List.mem_cons_of_mem _ hy)
    rw [List.cons_append, splitAtAll, hrest]
    simp [hw x List.mem_cons_self]

end Text

namespace Step

/-- A step that is read back from its spelling and is not to stay. -/
structure Spelled (s : Step) : Prop where
  read : ofPiece? s.text.toList = some s
  no_slash : '/' ∉ s.text.toList
  ne_here : s ≠ here

variable {s : Step}

theorem Spelled.text_ne_nil (h : s.Spelled) : s.text.toList ≠ [] := by
  intro hnil
  have hread := h.read
  simp [hnil, ofPiece?] at hread

/-- What a piece without slashes spells is spelled. -/
theorem spelled_of_ofPiece? {piece : List Char} (hs : ofPiece? piece = some s)
    (hslash : '/' ∉ piece) (hhere : s ≠ here) : s.Spelled := by
  have htext : s.text.toList = piece := by
    unfold ofPiece? at hs
    split at hs
    · simp at hs
    · split at hs
      · cases hs
        exact absurd rfl hhere
      · split at hs
        · next h =>
          cases hs
          simp [text, h]
        · cases hs
          simp [text]
  exact ⟨by rw [htext, hs], by rw [htext]; exact hslash, hhere⟩

/-- A name that is no name of a directory step and has no slash is spelled. -/
theorem spelled_name {n : String} (hne : n ≠ "") (hdot : n ≠ ".") (hdots : n ≠ "..")
    (hslash : '/' ∉ n.toList) : (name n).Spelled := by
  refine ⟨?_, hslash, by simp⟩
  have h₁ : n.toList ≠ [] := by simpa using hne
  have h₂ : n.toList ≠ ['.'] := fun h => hdot (String.ext h)
  have h₃ : n.toList ≠ ['.', '.'] := fun h => hdots (String.ext h)
  simp [text, ofPiece?, h₁, h₂, h₃]

end Step

namespace Location

/-- A location whose steps are spelled, up to a root that comes first. -/
def WellSpelled (l : Location) : Prop :=
  ∃ rest : Location, (l = rest ∨ l = .root :: rest) ∧ ∀ s ∈ rest, s.Spelled

/-- Steps with the number of characters up to the end of each, if they are
written from a given character on. -/
def ends (pos : Nat) : List Step → List (Step × Nat)
  | [] => []
  | s :: rest =>
    (s, pos + s.text.toList.length) :: ends (pos + s.text.toList.length + 1) rest

variable {rest : List Step} {s : Step}

theorem wellSpelled_of_all (h : ∀ s ∈ rest, s.Spelled) : WellSpelled rest :=
  ⟨rest, .inl rfl, h⟩

theorem map_fst_ends (pos : Nat) (rest : List Step) : (ends pos rest).map Prod.fst = rest := by
  induction rest generalizing pos with
  | nil => rfl
  | cons s rest ih => simp [ends, ih]

theorem chars_cons_cons (hs : s.Spelled) (u : Step) :
    chars (s :: u :: rest) = s.text.toList ++ '/' :: chars (u :: rest) := by
  cases s with
  | root => exact absurd (by simp [Step.text]) hs.no_slash
  | here => rfl
  | up => rfl
  | name n => rfl

theorem chars_root_cons (rest : Location) : chars (.root :: rest) = '/' :: chars rest := by
  cases rest with
  | nil => rfl
  | cons u rest => rfl

/-- The pieces of spelled steps are their spellings. -/
theorem splitAtAll_chars (h : ∀ s ∈ rest, s.Spelled) (hne : rest ≠ []) :
    Text.splitAtAll (· == '/') (chars rest) = rest.map fun s => s.text.toList := by
  induction rest with
  | nil => exact absurd rfl hne
  | cons s rest ih =>
    have hs := h s List.mem_cons_self
    have hpiece : ∀ c ∈ s.text.toList, (c == '/') = false := by
      intro c hc
      rw [beq_eq_false_iff_ne]
      rintro rfl
      exact hs.no_slash hc
    cases rest with
    | nil => simpa [chars] using Text.splitAtAll_of_none hpiece
    | cons u rest =>
      rw [chars_cons_cons hs, Text.splitAtAll_append_cons _ hpiece rfl,
        ih (fun x hx => h x (List.mem_cons_of_mem _ hx)) (by simp)]
      rfl

/-- Marking the spellings of steps gives the steps and their ends. -/
theorem mark_map_text (h : ∀ s ∈ rest, s.Spelled) (first : Bool) (pos : Nat) :
    Path.mark first pos (rest.map fun s => s.text.toList) = ends pos rest := by
  induction rest generalizing first pos with
  | nil => rfl
  | cons s rest ih =>
    have hs := h s List.mem_cons_self
    rw [List.map_cons, Path.mark, hs.read, ih fun x hx => h x (List.mem_cons_of_mem _ hx)]
    cases s with
    | here => exact absurd rfl hs.ne_here
    | root => rfl
    | up => rfl
    | name n => rfl

theorem head?_chars_ne_slash (h : ∀ s ∈ rest, s.Spelled) : (chars rest).head? ≠ some '/' := by
  cases rest with
  | nil => simp [chars]
  | cons s rest =>
    have hs := h s List.mem_cons_self
    obtain ⟨c, cs, hcs⟩ := List.exists_cons_of_ne_nil hs.text_ne_nil
    have hc : c ≠ '/' := by
      rintro rfl
      exact hs.no_slash (by simp [hcs])
    cases rest with
    | nil => simpa [chars, hcs] using hc
    | cons u rest => simpa [chars_cons_cons hs, hcs] using hc

theorem marks_of_head?_ne {cs : List Char} (h : cs.head? ≠ some '/') :
    Path.marks cs = Path.mark true 0 (Text.splitAtAll (· == '/') cs) := by
  unfold Path.marks
  split
  · simp at h
  · rfl

/-- The steps of spelled steps are they themselves. -/
theorem marks_chars (h : ∀ s ∈ rest, s.Spelled) : Path.marks (chars rest) = ends 0 rest := by
  rw [marks_of_head?_ne (head?_chars_ne_slash h)]
  by_cases hne : rest = []
  · subst hne
    rfl
  · rw [splitAtAll_chars h hne, mark_map_text h]

/-- The same below the root of all paths. -/
theorem marks_root_chars (h : ∀ s ∈ rest, s.Spelled) :
    Path.marks (chars (.root :: rest)) = (.root, 1) :: ends 1 rest := by
  rw [chars_root_cons]
  have hpieces := Text.splitAtAll_append_cons (p := (· == '/')) (w := []) (c := '/')
    (chars rest) (by simp) rfl
  simp only [List.nil_append] at hpieces
  simp only [Path.marks, hpieces]
  rw [Path.mark]
  simp only [Step.ofPiece?, List.length_nil, if_true]
  by_cases hne : rest = []
  · subst hne
    rfl
  · rw [splitAtAll_chars h hne, mark_map_text h]

/-- The plainest spelling of a well-spelled location has its steps. -/
theorem steps_path {l : Location} (h : l.WellSpelled) : l.path.steps = l := by
  obtain ⟨rest, rfl | rfl, hrest⟩ := h
  · simp only [Path.steps, path, String.toList_ofList, marks_chars hrest, map_fst_ends]
  · simp only [Path.steps, path, String.toList_ofList, marks_root_chars hrest,
      List.map_cons, map_fst_ends]

/-- A well-spelled location is the location of its plainest spelling. -/
theorem location_path {l : Location} (h : l.WellSpelled) : l.path.location = l := by
  unfold Path.location
  rw [steps_path h, List.filter_eq_self]
  intro s hs
  obtain ⟨rest, rfl | rfl, hrest⟩ := h
  · simpa using (hrest s hs).ne_here
  · rcases List.mem_cons.mp hs with rfl | hs
    · simp
    · simpa using (hrest s hs).ne_here

end Location

namespace Path

/-- The steps that pieces without slashes spell, apart from those to stay. -/
theorem spelled_of_mem_mark {pieces : List (List Char)} {first : Bool} {pos : Nat} {x : Step × Nat}
    (hslash : ∀ piece ∈ pieces, '/' ∉ piece) (hx : x ∈ mark first pos pieces)
    (hhere : x.1 ≠ .here) : x.1.Spelled := by
  induction pieces generalizing first pos with
  | nil => simp [mark] at hx
  | cons piece pieces ih =>
    have hrest := fun q hq => hslash q (List.mem_cons_of_mem _ hq)
    rw [mark] at hx
    cases hp : Step.ofPiece? piece with
    | none => exact ih hrest (by simpa [hp] using hx)
    | some s =>
      have later : x ∈ (s, pos + piece.length) ::
          mark false (pos + piece.length + 1) pieces := by
        cases s with
        | here =>
          cases first with
          | true => simpa [hp] using hx
          | false => exact List.mem_cons_of_mem _ (by simpa [hp] using hx)
        | root => simpa [hp] using hx
        | up => simpa [hp] using hx
        | name n => simpa [hp] using hx
      rcases List.mem_cons.mp later with rfl | hx
      · exact Step.spelled_of_ofPiece? hp (hslash _ List.mem_cons_self) hhere
      · exact ih hrest hx

/-- The location of a path is well spelled. -/
theorem wellSpelled_location (p : Path) : p.location.WellSpelled := by
  have hslash : ∀ piece ∈ Text.splitAtAll (· == '/') p.text.toList, '/' ∉ piece := by
    intro piece hpiece hmem
    simpa using Text.not_mem_of_mem_splitAtAll hpiece hmem
  have hspelled : ∀ first, ∀ s ∈ ((mark first 0 (Text.splitAtAll (· == '/') p.text.toList)).map
      Prod.fst).filter (· ≠ .here), s.Spelled := by
    intro first s hs
    obtain ⟨hs, hhere⟩ := List.mem_filter.mp hs
    obtain ⟨x, hx, rfl⟩ := List.mem_map.mp hs
    exact spelled_of_mem_mark hslash hx (by simpa using hhere)
  unfold location steps marks
  dsimp only
  split
  · exact ⟨_, .inr (List.filter_cons_of_pos (by simp)), hspelled false⟩
  · exact ⟨_, .inl rfl, hspelled true⟩

theorem spelled_of_mem_location {p : Path} {n : String} (h : Step.name n ∈ p.location) :
    (Step.name n).Spelled := by
  obtain ⟨rest, hrest | hrest, hspelled⟩ := wellSpelled_location p
  · rw [hrest] at h
    exact hspelled _ h
  · rw [hrest] at h
    exact hspelled _ ((List.mem_cons.mp h).resolve_left (by simp))

end Path

end Retarget
