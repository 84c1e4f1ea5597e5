import Retarget.Proofs.Path.Archive
import Retarget.Relocation

/-!
# Spelling a path for another host

Resolving follows the steps of a path, and the steps of a joined path are those of its
two parts.  So the spelling that `Path.rebase` gives, which climbs from the new host to
what both hosts have in common and then descends to the target, reaches the target.
-/

namespace Retarget

namespace Text

/-- A separator parts the pieces before it from those behind it. -/
theorem splitAtAll_append {p : Char → Bool} {c : Char} (hc : p c = true) (a b : List Char) :
    splitAtAll p (a ++ c :: b) = splitAtAll p a ++ splitAtAll p b := by
  induction a with
  | nil => simp [splitAtAll, hc]
  | cons x a ih =>
    rw [List.cons_append, splitAtAll, splitAtAll, ih]
    by_cases hx : p x = true
    · simp [hx]
    · have hlength := length_splitAtAll p a
      cases hpieces : splitAtAll p a with
      | nil => simp [hpieces] at hlength
      | cons w ws => simp [hx]

end Text

namespace Location

/-! ## Following steps -/

theorem follow_append (at_ : List String) (a b : List Step) :
    follow at_ (a ++ b) = (follow at_ a).bind fun n => follow n b := by
  induction a generalizing at_ with
  | nil => rfl
  | cons s a ih =>
    cases s with
    | root => rfl
    | here => exact ih at_
    | name s => exact ih (s :: at_)
    | up =>
      cases at_ with
      | nil => rfl
      | cons n outer => exact ih outer

/-- To stay leads nowhere. -/
theorem follow_filter (at_ : List String) (steps : List Step) :
    follow at_ (steps.filter (· ≠ .here)) = follow at_ steps := by
  induction steps generalizing at_ with
  | nil => rfl
  | cons s rest ih =>
    cases s with
    | root => rfl
    | here => exact ih at_
    | name s => exact ih (s :: at_)
    | up =>
      cases at_ with
      | nil => rfl
      | cons n outer => exact ih outer

theorem follow_names (at_ names : List String) :
    follow at_ (names.map .name) = some (names.reverse ++ at_) := by
  induction names generalizing at_ with
  | nil => rfl
  | cons n names ih =>
    rw [List.map_cons, follow, ih]
    simp

theorem follow_ups (outer behind : List String) :
    follow (behind.reverse ++ outer) (behind.map fun _ => .up) = some outer := by
  have climbs (at_ : List String) (n : Nat) :
      follow at_ (List.replicate n .up) = if n ≤ at_.length then some (at_.drop n) else none := by
    induction n generalizing at_ with
    | zero => simp [follow]
    | succ n ih =>
      cases at_ with
      | nil => simp [List.replicate_succ, follow]
      | cons x at_ => simp [List.replicate_succ, follow, ih]
  rw [List.map_const', climbs]
  simp

/-- Names that are reached stand in the steps that lead there. -/
theorem mem_of_mem_follow {at_ names : List String} {steps : List Step} {n : String}
    (h : follow at_ steps = some names) (hn : n ∈ names) : n ∈ at_ ∨ Step.name n ∈ steps := by
  induction steps generalizing at_ with
  | nil =>
    obtain rfl := Option.some.inj h
    exact .inl hn
  | cons s rest ih =>
    cases s with
    | root => cases h
    | here => exact (ih h).imp_right (List.mem_cons_of_mem _)
    | name s =>
      rcases ih h with hmem | hmem
      · rcases List.mem_cons.mp hmem with rfl | hmem
        · exact .inr List.mem_cons_self
        · exact .inl hmem
      · exact .inr (List.mem_cons_of_mem _ hmem)
    | up =>
      cases at_ with
      | nil => cases h
      | cons x outer =>
        rcases ih h with hmem | hmem
        · exact .inl (List.mem_cons_of_mem _ hmem)
        · exact .inr (List.mem_cons_of_mem _ hmem)

end Location

namespace Path

open Location (follow)

/-! ## Steps of joined paths -/

/-- The steps that pieces spell, apart from those to stay. -/
def moves (pieces : List (List Char)) : List Step :=
  (pieces.filterMap Step.ofPiece?).filter (· ≠ .here)

theorem moves_append (a b : List (List Char)) : moves (a ++ b) = moves a ++ moves b := by
  unfold moves
  rw [List.filterMap_append, List.filter_append]

theorem moves_mark (first : Bool) (pos : Nat) (pieces : List (List Char)) :
    ((mark first pos pieces).map Prod.fst).filter (· ≠ .here) = moves pieces := by
  unfold moves
  induction pieces generalizing first pos with
  | nil => rfl
  | cons piece rest ih =>
    rw [mark, List.filterMap_cons]
    cases hstep : Step.ofPiece? piece with
    | none => exact ih _ _
    | some s =>
      cases s with
      | here =>
        cases first with
        | true => simpa using ih _ _
        | false => simpa using ih _ _
      | root => simpa using ih _ _
      | up => simpa using ih _ _
      | name n => simpa using ih _ _

/-- A place is reached by the moves of the pieces, from the root of all paths if the path
starts there. -/
theorem location_eq (p : Path) :
    p.location = (if p.isAbsolute then [.root] else []) ++
      moves (Text.splitAtAll (· == '/') p.text.toList) := by
  unfold location steps isAbsolute
  by_cases habsolute : p.text.toList.head? = some '/'
  · obtain ⟨cs, hcs⟩ := List.head?_eq_some_iff.mp habsolute
    have hmarks : marks ('/' :: cs) =
        (.root, 1) :: mark false 0 (Text.splitAtAll (· == '/') ('/' :: cs)) := rfl
    rw [hcs, hmarks, List.map_cons, List.filter_cons_of_pos (by simp), moves_mark]
    rfl
  · rw [Location.marks_of_head?_ne habsolute, moves_mark]
    simp [habsolute]

theorem location_empty : (Path.mk "").location = [] := by
  rw [location_eq]
  rfl

/-- The steps of a path below another one come behind its steps. -/
theorem location_join (a : Path) {b : Path} (hb : b.isAbsolute = false) :
    (a.join b).location = a.location ++ b.location := by
  have hslash (s : String) (t : List Char) :
      moves (Text.splitAtAll (· == '/') (s.toList ++ '/' :: t)) =
        moves (Text.splitAtAll (· == '/') s.toList) ++ moves (Text.splitAtAll (· == '/') t) := by
    rw [Text.splitAtAll_append (by rfl), moves_append]
  unfold join
  rw [hb, Bool.false_or]
  by_cases hempty : a.text = ""
  · have ha : a = ⟨""⟩ := congrArg Path.mk hempty
    simp [ha, location_empty]
  · simp only [hempty, decide_false, Bool.false_eq_true, if_false]
    obtain ⟨c, cs, hcs⟩ := List.exists_cons_of_ne_nil (l := a.text.toList) (by simpa using hempty)
    have habsolute (t : String) : isAbsolute ⟨a.text ++ t⟩ = a.isAbsolute := by
      simp [isAbsolute, hcs]
    rw [location_eq a, location_eq b, hb]
    split
    · next hlast =>
      obtain ⟨init, hinit⟩ := List.getLast?_eq_some_iff.mp hlast
      have hclosed : moves (Text.splitAtAll (· == '/') a.text.toList) =
          moves (Text.splitAtAll (· == '/') init) := by
        have := hslash (String.ofList init) []
        rw [String.toList_ofList, ← hinit] at this
        simpa [moves, Text.splitAtAll, Step.ofPiece?] using this
      have hopen := hslash (String.ofList init) b.text.toList
      rw [String.toList_ofList] at hopen
      rw [location_eq, habsolute, String.toList_append, hinit, List.append_assoc,
        List.singleton_append, hopen, ← hinit, hclosed]
      simp
    · have hopen := hslash a.text b.text.toList
      have hbar : ("/" : String).toList = ['/'] := rfl
      rw [location_eq, String.append_assoc, habsolute, String.toList_append,
        String.toList_append, hbar, List.singleton_append, hopen]
      simp

/-- A closing slash says nothing. -/
theorem location_closed {s : String} (h : s ≠ "") :
    (Path.mk (s ++ "/")).location = (Path.mk s).location := by
  obtain ⟨c, cs, hcs⟩ := List.exists_cons_of_ne_nil (l := s.toList) (by simpa using h)
  have habsolute : isAbsolute ⟨s ++ "/"⟩ = isAbsolute ⟨s⟩ := by
    simp [isAbsolute, hcs]
  have hbar : ("/" : String).toList = ['/'] := rfl
  rw [location_eq, location_eq, habsolute, String.toList_append, hbar,
    Text.splitAtAll_append (by rfl), moves_append]
  simp [moves, Text.splitAtAll, Step.ofPiece?]

theorem resolve_eq (p : Path) : p.resolve = (follow [] p.location).map List.reverse := by
  rw [location, Location.follow_filter]
  rfl

/-- To resolve a path below another one is to go on from there. -/
theorem resolve_join (a : Path) {b : Path} (hb : b.isAbsolute = false) {base : List String}
    (ha : a.resolve = some base) :
    (a.join b).resolve = (follow base.reverse b.location).map List.reverse := by
  rw [resolve_eq] at ha
  obtain ⟨at_, hat, rfl⟩ := Option.map_eq_some_iff.mp ha
  rw [resolve_eq, location_join a hb, Location.follow_append, hat, List.reverse_reverse]
  rfl

/-! ## Rebasing -/

theorem dropCommon_spec (target base : List String) :
    ∃ common, target = common ++ (dropCommon target base).1 ∧
      base = common ++ (dropCommon target base).2 := by
  induction target generalizing base with
  | nil => exact ⟨[], by simp [dropCommon]⟩
  | cons a target ih =>
    cases base with
    | nil => exact ⟨[], by simp [dropCommon]⟩
    | cons b base =>
      by_cases hab : a = b
      · obtain ⟨common, htarget, hbase⟩ := ih base
        subst hab
        refine ⟨a :: common, ?_, ?_⟩
        · simpa [dropCommon] using htarget
        · simpa [dropCommon] using hbase
      · exact ⟨[], by simp [dropCommon, hab]⟩

/-- The steps that `leading` spells. -/
def leadingSteps (target base : List String) : List Step :=
  (dropCommon target base).2.map (fun _ => .up) ++ (dropCommon target base).1.map .name

theorem map_text_leadingSteps (target base : List String) :
    (leadingSteps target base).map Step.text = leading target base := by
  unfold leadingSteps leading
  rw [List.map_append, List.map_map, List.map_map]
  congr 1
  exact List.map_id _

theorem follow_leadingSteps (target base : List String) :
    follow base.reverse (leadingSteps target base) = some target.reverse := by
  obtain ⟨common, htarget, hbase⟩ := dropCommon_spec target base
  have hup := Location.follow_ups common.reverse (dropCommon target base).2
  rw [← List.reverse_append, ← hbase] at hup
  rw [leadingSteps, Location.follow_append, hup]
  dsimp only [Option.bind_some]
  rw [Location.follow_names, ← List.reverse_append, ← htarget]

theorem spelled_leadingSteps {target : List String} (base : List String)
    (hnames : ∀ n ∈ target, (Step.name n).Spelled) :
    ∀ s ∈ leadingSteps target base, s.Spelled := by
  intro s hs
  rcases List.mem_append.mp hs with hs | hs
  · obtain ⟨n, -, rfl⟩ := List.mem_map.mp hs
    exact ⟨rfl, by decide, by simp⟩
  · obtain ⟨n, hn, rfl⟩ := List.mem_map.mp hs
    obtain ⟨common, htarget, -⟩ := dropCommon_spec target base
    refine hnames n ?_
    rw [htarget]
    exact List.mem_append_right _ hn

theorem intercalate_text {ss : List Step} (h : ∀ s ∈ ss, s.Spelled) :
    "/".intercalate (ss.map Step.text) = (Location.path ss).text := by
  induction ss with
  | nil => rfl
  | cons s ss ih =>
    have hs := h s List.mem_cons_self
    have hrest := ih fun u hu => h u (List.mem_cons_of_mem _ hu)
    cases ss with
    | nil => simp [Location.path, Location.chars]
    | cons u ss =>
      rw [List.map_cons] at hrest
      rw [List.map_cons, List.map_cons, String.intercalate_cons_cons, hrest]
      apply String.ext
      simp [Location.path, Location.chars_cons_cons hs]

/-- A spelling of steps that starts where one is. -/
structure Denotes (r : String) (steps : List Step) : Prop where
  ne_empty : r ≠ ""
  relative : (Path.mk r).isAbsolute = false
  location : (Path.mk r).location = steps

theorem denotes_leading {target : List String} (base : List String)
    (hnames : ∀ n ∈ target, (Step.name n).Spelled) :
    Denotes (if leading target base = [] then "." else "/".intercalate (leading target base))
      (leadingSteps target base) := by
  have hspelled := spelled_leadingSteps base hnames
  rw [← map_text_leadingSteps]
  split
  · next hnil =>
    rw [List.map_eq_nil_iff.mp hnil]
    exact ⟨by decide, by decide, by decide⟩
  · next hne =>
    have hsteps : leadingSteps target base ≠ [] := fun hnil => hne (by rw [hnil]; rfl)
    rw [intercalate_text hspelled]
    refine ⟨?_, ?_, Location.location_path (Location.wellSpelled_of_all hspelled)⟩
    · simpa [Location.path] using Location.chars_ne_nil hspelled hsteps
    · simpa [isAbsolute, Location.path] using Location.head?_chars_ne_slash hspelled

/-- A closing slash changes nothing. -/
theorem Denotes.closed {r : String} {steps : List Step} (h : Denotes r steps) :
    Denotes (r ++ "/") steps := by
  obtain ⟨c, cs, hcs⟩ := List.exists_cons_of_ne_nil (l := r.toList) (by simpa using h.ne_empty)
  have hrelative := h.relative
  refine ⟨?_, ?_, (location_closed h.ne_empty).trans h.location⟩
  · simp
  · simpa [isAbsolute, hcs] using hrelative

/-- The names on the way to a path are steps of it. -/
theorem name_mem_of_mem_resolve {p : Path} {target : List String} {n : String}
    (h : p.resolve = some target) (hn : n ∈ target) : Step.name n ∈ p.location := by
  rw [resolve_eq] at h
  obtain ⟨names, hnames, rfl⟩ := Option.map_eq_some_iff.mp h
  exact (Location.mem_of_mem_follow hnames (List.mem_reverse.mp hn)).resolve_left
    List.not_mem_nil

theorem spelled_of_mem_resolve {p : Path} {target : List String} (h : p.resolve = some target) :
    ∀ n ∈ target, (Step.name n).Spelled := by
  intro n hn
  exact spelled_of_mem_location (name_mem_of_mem_resolve h hn)

/-- A path that was spelled for another host reaches the place that it reached. -/
theorem resolve_rebase {literal r : String} {old new : Path}
    (h : rebase literal old new = some r) :
    (new.join ⟨r⟩).resolve = (old.join ⟨literal⟩).resolve ∧
      ((old.join ⟨literal⟩).resolve).isSome = true := by
  unfold rebase at h
  split at h
  · next target base htarget hbase =>
    have hplain := denotes_leading base (spelled_of_mem_resolve htarget)
    have hdenotes : Denotes r (leadingSteps target base) := by
      rw [← Option.some.inj h]
      generalize (if leading target base = [] then "." else
        "/".intercalate (leading target base)) = plain at hplain
      split
      · exact hplain.closed
      · exact hplain
    rw [resolve_join new hdenotes.relative hbase, hdenotes.location, follow_leadingSteps, htarget]
    simp
  · cases h

end Path

end Retarget
