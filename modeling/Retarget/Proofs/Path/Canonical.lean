import Retarget.Proofs.Path.Rebasing

/-!
# One spelling for each place

`Path.rebase` takes two things from a literal: the place that it reaches and whether a slash
closes it.  So what it gives is the same for all literals that agree in both, and a path may
take a way through several hosts (`rebase_rebase`).  It climbs as little as any path that
leads from the host to that place, because a path that climbs less never leaves what both
have in common (`dropCommon_length_le`), and it climbs before it descends
(`rebase_keeps_place`).
-/

namespace Retarget

namespace Step

/-- Whether a step goes down to an entry. -/
def isName : Step → Bool
  | name _ => true
  | _ => false

end Step

namespace Location

/-! ## Walks that can be followed -/

theorem forall_prefix_cons {P : List Step → Prop} (s : Step) (rest : List Step) :
    (∀ walked, walked <+: s :: rest → P walked) ↔
      P [] ∧ ∀ walked, walked <+: rest → P (s :: walked) := by
  constructor
  · intro h
    refine ⟨h [] List.nil_prefix, fun walked hwalked => ?_⟩
    exact h (s :: walked) (List.cons_prefix_cons.mpr ⟨rfl, hwalked⟩)
  · rintro ⟨hnil, hcons⟩ walked hwalked
    rcases List.prefix_cons_iff.mp hwalked with rfl | ⟨w, rfl, hw⟩
    · exact hnil
    · exact hcons w hw

/-- Steps can be followed if they do not start at the root of all paths and no part of the
way climbs more often than it descended, counted from the workspace. -/
theorem isSome_follow_iff (at_ : List String) (steps : List Step) :
    (follow at_ steps).isSome ↔ .root ∉ steps ∧
      ∀ walked, walked <+: steps →
        walked.count .up ≤ at_.length + walked.countP Step.isName := by
  induction steps generalizing at_ with
  | nil => simp [follow]
  | cons s rest ih =>
    rw [forall_prefix_cons]
    cases s with
    | root => simp [follow]
    | here => simp [follow, ih, Step.isName]
    | name n =>
      have hlength (k : Nat) : at_.length + 1 + k = at_.length + (k + 1) := by omega
      have hdown (walked : List Step) :
          (Step.name n :: walked).countP Step.isName = walked.countP Step.isName + 1 :=
        List.countP_cons_of_pos rfl
      simp [follow, ih, hlength, hdown]
    | up =>
      cases at_ with
      | nil =>
        have hstuck := List.nil_prefix (l := rest)
        simp only [follow, Option.isSome_none, Bool.false_eq_true, false_iff]
        rintro ⟨-, -, hwalk⟩
        simpa [Step.isName] using hwalk [] hstuck
      | cons x outer =>
        have hlength (a k : Nat) : a + 1 ≤ outer.length + 1 + k ↔ a ≤ outer.length + k := by omega
        simp [follow, ih, Step.isName, hlength]

/-- What is reached keeps of the start all but as many names as the way climbs. -/
theorem exists_suffix_of_follow {at_ names : List String} {steps : List Step}
    (h : follow at_ steps = some names) :
    ∃ n ≤ steps.count .up, at_.drop n <:+ names := by
  induction steps generalizing at_ with
  | nil =>
    obtain rfl := Option.some.inj h
    exact ⟨0, Nat.le_refl _, List.suffix_refl _⟩
  | cons s rest ih =>
    cases s with
    | root => cases h
    | here =>
      obtain ⟨n, hn, hsuffix⟩ := ih h
      exact ⟨n, by simpa using hn, hsuffix⟩
    | name s =>
      obtain ⟨n, hn, hsuffix⟩ := ih h
      rw [List.count_cons_of_ne (by simp)]
      cases n with
      | zero => exact ⟨0, Nat.zero_le _, (List.suffix_cons s at_).trans hsuffix⟩
      | succ n => exact ⟨n, by omega, hsuffix⟩
    | up =>
      cases at_ with
      | nil => cases h
      | cons x outer =>
        obtain ⟨n, hn, hsuffix⟩ := ih h
        refine ⟨n + 1, ?_, hsuffix⟩
        rw [List.count_cons_self]
        omega

end Location

namespace Path

variable {literal r : String} {old new : Path} {target base common : List String}

/-- A path that never leaves the workspace: it does not start at the root of all paths, and
no part of it climbs more often than it descended. -/
def StaysInside (p : Path) : Prop :=
  p.isAbsolute = false ∧
    ∀ walked, walked <+: p.steps → walked.count .up ≤ walked.countP Step.isName

theorem root_not_mem_moves (pieces : List (List Char)) : Step.root ∉ moves pieces := by
  intro hroot
  obtain ⟨hroot, -⟩ := List.mem_filter.mp hroot
  obtain ⟨piece, -, hpiece⟩ := List.mem_filterMap.mp hroot
  unfold Step.ofPiece? at hpiece
  split at hpiece
  · cases hpiece
  · split at hpiece
    · cases hpiece
    · split at hpiece
      · cases hpiece
      · cases hpiece

/-- The root of all paths stands in absolute paths only. -/
theorem root_mem_steps_iff (p : Path) : .root ∈ p.steps ↔ p.isAbsolute = true := by
  have hlocation : .root ∈ p.steps ↔ .root ∈ p.location := by simp [location]
  rw [hlocation, location_eq]
  cases p.isAbsolute with
  | true => simp
  | false => simpa using root_not_mem_moves _

/-- A path has a place in the workspace if it never leaves it. -/
theorem isSome_resolve_iff (p : Path) : p.resolve.isSome ↔ p.StaysInside := by
  rw [resolve, Location.resolve, Option.isSome_map, Location.isSome_follow_iff,
    root_mem_steps_iff, StaysInside]
  simp

/-- A path below another one that has a place is relative. -/
theorem relative_of_resolve_join (h : (old.join ⟨literal⟩).resolve.isSome) :
    (Path.mk literal).isAbsolute = false := by
  cases habsolute : (Path.mk literal).isAbsolute with
  | false => rfl
  | true =>
    have hinside := (isSome_resolve_iff _).mp h
    rw [join, habsolute, Bool.true_or, if_pos rfl] at hinside
    rw [← hinside.1, habsolute]

/-- A host has a place if a path below it has one. -/
theorem resolve_of_resolve_join (h : (old.join ⟨literal⟩).resolve.isSome) :
    old.resolve.isSome := by
  have hrelative := relative_of_resolve_join h
  rw [resolve_eq, location_join old hrelative, Location.follow_append, Option.isSome_map] at h
  rw [resolve_eq, Option.isSome_map]
  exact Option.isSome_of_isSome_bind h

/-! ## The spelling of a place -/

/-- Whether a slash closes a literal. -/
def isClosed (literal : String) : Bool :=
  literal.utf8ByteSize > 1 && literal.toList.getLast? = some '/'

/-- The names that lead from a directory to a target as one text. -/
def plainly (target base : List String) : String :=
  if leading target base = [] then "." else "/".intercalate (leading target base)

/-- The spelling of a target from a directory, closed by a slash or not. -/
def spelling (target base : List String) (closed : Bool) : String :=
  if closed then plainly target base ++ "/" else plainly target base

theorem leadingSteps_eq_nil_iff : leadingSteps target base = [] ↔ leading target base = [] := by
  rw [← map_text_leadingSteps, List.map_eq_nil_iff]

/-- The spelling of a target that lies elsewhere. -/
theorem plainly_of_ne (hnames : ∀ n ∈ target, (Step.name n).Spelled)
    (hne : leadingSteps target base ≠ []) :
    plainly target base = (Location.path (leadingSteps target base)).text := by
  rw [plainly, if_neg fun hnil => hne (leadingSteps_eq_nil_iff.mpr hnil), ← map_text_leadingSteps,
    intercalate_text (spelled_leadingSteps base hnames)]

theorem getLast?_plainly (base : List String) (hnames : ∀ n ∈ target, (Step.name n).Spelled) :
    (plainly target base).toList.getLast? ≠ some '/' := by
  by_cases hnil : leadingSteps target base = []
  · rw [plainly, if_pos (leadingSteps_eq_nil_iff.mp hnil)]
    decide
  · rw [plainly_of_ne hnames hnil, Location.path, String.toList_ofList]
    exact Location.getLast?_chars_ne_slash (spelled_leadingSteps base hnames)

/-- Rebasing uses of a literal the place that it reaches and whether a slash closes it. -/
theorem rebase_eq_some_iff :
    rebase literal old new = some r ↔ ∃ target base, (old.join ⟨literal⟩).resolve = some target ∧
      new.resolve = some base ∧ r = spelling target base (isClosed literal) := by
  unfold rebase
  split
  · next target base htarget hbase =>
    have hopen := getLast?_plainly base (spelled_of_mem_resolve htarget)
    rw [plainly] at hopen
    have hspelling :
        (if isClosed literal && decide ((plainly target base).toList.getLast? ≠ some '/')
          then plainly target base ++ "/" else plainly target base) =
        spelling target base (isClosed literal) := by
      simp [spelling, plainly, hopen]
    constructor
    · intro h
      exact ⟨target, base, htarget, hbase, (Option.some.inj h).symm.trans hspelling⟩
    · rintro ⟨target', base', htarget', hbase', rfl⟩
      obtain rfl := Option.some.inj (htarget.symm.trans htarget')
      obtain rfl := Option.some.inj (hbase.symm.trans hbase')
      exact congrArg some hspelling
  · next hneither =>
    constructor
    · intro h
      cases h
    · rintro ⟨target, base, htarget, hbase, -⟩
      exact absurd hbase (hneither target base htarget)

/-- Literals that reach one place and are closed alike have one spelling. -/
theorem rebase_congr {literal' : String} {old' : Path}
    (hplace : (old.join ⟨literal⟩).resolve = (old'.join ⟨literal'⟩).resolve)
    (hclosed : isClosed literal = isClosed literal') (new : Path) :
    rebase literal old new = rebase literal' old' new := by
  apply Option.ext
  intro r
  rw [rebase_eq_some_iff, rebase_eq_some_iff, hplace, hclosed]

/-! ## Steps of the spelling -/

/-- A closing slash is no step. -/
theorem steps_closed {s : String} (h : s ≠ "") :
    (Path.mk (s ++ "/")).steps = (Path.mk s).steps := by
  have hmark (first : Bool) (pos : Nat) (pieces : List (List Char)) :
      (mark first pos (pieces ++ [[]])).map Prod.fst = (mark first pos pieces).map Prod.fst := by
    induction pieces generalizing first pos with
    | nil => rfl
    | cons piece pieces ih =>
      rw [List.cons_append, mark, mark]
      split
      · exact ih _ _
      · split
        · rw [List.map_cons, List.map_cons, ih]
        · exact ih _ _
      · rw [List.map_cons, List.map_cons, ih]
  obtain ⟨c, cs, hcs⟩ := List.exists_cons_of_ne_nil (l := s.toList) (by simpa using h)
  have hpieces : Text.splitAtAll (· == '/') ((c :: cs) ++ ['/']) =
      Text.splitAtAll (· == '/') (c :: cs) ++ [[]] :=
    Text.splitAtAll_append (by rfl) (c :: cs) []
  have hbar : ("/" : String).toList = ['/'] := rfl
  unfold steps
  rw [String.toList_append, hbar, hcs]
  by_cases hc : c = '/'
  · subst hc
    change ((Step.root, 1) :: mark false 0 _).map Prod.fst =
      ((Step.root, 1) :: mark false 0 _).map Prod.fst
    rw [hpieces, List.map_cons, List.map_cons, hmark]
  · rw [Location.marks_of_head?_ne (by simpa using hc),
      Location.marks_of_head?_ne (by simpa using hc), hpieces, hmark]

theorem plainly_ne_empty (base : List String) (hnames : ∀ n ∈ target, (Step.name n).Spelled) :
    plainly target base ≠ "" :=
  (denotes_leading base hnames).ne_empty

theorem denotes_spelling (base : List String) (hnames : ∀ n ∈ target, (Step.name n).Spelled)
    (closed : Bool) : Denotes (spelling target base closed) (leadingSteps target base) := by
  cases closed with
  | true => exact (denotes_leading base hnames).closed
  | false => exact denotes_leading base hnames

theorem steps_spelling (base : List String) (hnames : ∀ n ∈ target, (Step.name n).Spelled)
    (closed : Bool) : (Path.mk (spelling target base closed)).steps =
      if leadingSteps target base = [] then [.here] else leadingSteps target base := by
  have hplain : (Path.mk (plainly target base)).steps =
      if leadingSteps target base = [] then [.here] else leadingSteps target base := by
    split
    · next hnil =>
      rw [plainly, if_pos (leadingSteps_eq_nil_iff.mp hnil)]
      decide
    · next hne =>
      rw [plainly_of_ne hnames hne]
      exact Location.steps_path (Location.wellSpelled_of_all (spelled_leadingSteps base hnames))
  cases closed with
  | true => exact (steps_closed (plainly_ne_empty base hnames)).trans hplain
  | false => exact hplain

theorem getLast?_spelling (base : List String) (hnames : ∀ n ∈ target, (Step.name n).Spelled)
    (closed : Bool) :
    (spelling target base closed).toList.getLast? = some '/' ↔ closed = true := by
  cases closed with
  | true => simp [spelling]
  | false => simpa [spelling] using getLast?_plainly base hnames

theorem isClosed_spelling (base : List String) (hnames : ∀ n ∈ target, (Step.name n).Spelled)
    (closed : Bool) : isClosed (spelling target base closed) = closed := by
  have hlast := getLast?_spelling base hnames closed
  cases closed with
  | true =>
    have hsize : (plainly target base).utf8ByteSize ≠ 0 := fun hzero =>
      plainly_ne_empty base hnames (String.utf8ByteSize_eq_zero_iff.mp hzero)
    have hlong : 1 < (plainly target base ++ "/").utf8ByteSize := by
      rw [String.utf8ByteSize_append]
      change 1 < (plainly target base).utf8ByteSize + 1
      omega
    rw [isClosed, Bool.and_eq_true]
    exact ⟨decide_eq_true hlong, decide_eq_true (hlast.mpr rfl)⟩
  | false => simpa [isClosed] using fun _ => hlast

/-! ## Climbing as little as possible -/

theorem dropCommon_length_le (htarget : common <+: target) (hbase : common <+: base) :
    common.length + (dropCommon target base).2.length ≤ base.length := by
  induction common generalizing target base with
  | nil =>
    obtain ⟨shared, -, hshared⟩ := dropCommon_spec target base
    have hlength := congrArg List.length hshared
    rw [List.length_append] at hlength
    simp only [List.length_nil]
    omega
  | cons x common ih =>
    obtain ⟨target', rfl⟩ := htarget
    obtain ⟨base', rfl⟩ := hbase
    have hrest := ih (List.prefix_append common target') (List.prefix_append common base')
    rw [List.cons_append, List.cons_append, dropCommon, if_pos rfl, List.length_cons,
      List.length_cons]
    omega

theorem count_leadingSteps (target base : List String) :
    (leadingSteps target base).count .up = (dropCommon target base).2.length := by
  have hnames (names : List String) : (names.map Step.name).count .up = 0 := by
    rw [List.count_eq_zero]
    simp
  rw [leadingSteps, List.count_append, hnames, List.map_const', List.count_replicate_self]
  rfl

/-- A path that leads from a directory to a target climbs at least to what both have in
common. -/
theorem count_le_of_follow {steps : List Step}
    (h : Location.follow base.reverse steps = some target.reverse) :
    (leadingSteps target base).count .up ≤ steps.count .up := by
  obtain ⟨n, hn, hsuffix⟩ := Location.exists_suffix_of_follow h
  rw [List.drop_reverse, List.reverse_suffix] at hsuffix
  have hshared := dropCommon_length_le hsuffix (List.take_prefix _ _)
  rw [List.length_take] at hshared
  rw [count_leadingSteps]
  omega

/-! ## Rebasing -/

/-- A literal that says from a new host what another one says from the old one, in the
plainest way. -/
structure Expresses (old new : Path) (literal r : String) : Prop where
  /-- it reaches the same place -/
  same_place : (new.join ⟨r⟩).resolve = (old.join ⟨literal⟩).resolve
  /-- it says to stay only if there is nothing else to say -/
  stays : .here ∈ (Path.mk r).steps → r = "." ∨ r = "./"
  /-- it climbs before it descends -/
  climbs_first : ∃ (n : Nat) (names : List String),
    (Path.mk r).location = List.replicate n .up ++ names.map .name
  /-- no literal that reaches the place from the new host climbs less -/
  climbs_least : ∀ other, (new.join ⟨other⟩).resolve = (old.join ⟨literal⟩).resolve →
    (Path.mk r).steps.count .up ≤ (Path.mk other).steps.count .up
  /-- a slash closes both or none; a slash alone closes nothing -/
  closed : r.toList.getLast? = some '/' ↔
    1 < literal.utf8ByteSize ∧ literal.toList.getLast? = some '/'

theorem expresses_of_rebase (h : rebase literal old new = some r) :
    Expresses old new literal r := by
  have hplace := (resolve_rebase h).1
  obtain ⟨target, base, htarget, hbase, rfl⟩ := rebase_eq_some_iff.mp h
  have hnames := spelled_of_mem_resolve htarget
  have hsteps := steps_spelling base hnames (isClosed literal)
  refine ⟨hplace, ?_, ?_, ?_, ?_⟩
  · intro hhere
    rw [hsteps] at hhere
    split at hhere
    · next hnil =>
      rw [spelling, plainly, if_pos (leadingSteps_eq_nil_iff.mp hnil)]
      split
      · exact .inr rfl
      · exact .inl rfl
    · exact absurd hhere fun h => (spelled_leadingSteps base hnames _ h).ne_here rfl
  · rw [(denotes_spelling base hnames _).location, leadingSteps, List.map_const']
    exact ⟨_, _, rfl⟩
  · intro other hother
    have hrelative : (Path.mk other).isAbsolute = false :=
      relative_of_resolve_join (by rw [hother, htarget]; rfl)
    rw [resolve_join new hrelative hbase, htarget] at hother
    obtain ⟨names, hfollow, hreverse⟩ := Option.map_eq_some_iff.mp hother
    rw [location, Location.follow_filter, List.reverse_eq_iff.mp hreverse] at hfollow
    have hleast := count_le_of_follow hfollow
    rw [hsteps]
    split
    · simp
    · exact hleast
  · rw [getLast?_spelling base hnames, isClosed]
    simp

/-- Rebasing gives a literal exactly if the place of the old one and the new host never leave
the workspace, and it keeps the place that the old one denotes. -/
theorem rebase_keeps_place (literal : String) (old new : Path) :
    ((rebase literal old new).isSome ↔
      (old.join ⟨literal⟩).resolve.isSome ∧ new.resolve.isSome) ∧
    ((old.join ⟨literal⟩).resolve.isSome ↔ (old.join ⟨literal⟩).StaysInside) ∧
    (new.resolve.isSome ↔ new.StaysInside) ∧
    ∀ r, rebase literal old new = some r → Expresses old new literal r := by
  refine ⟨?_, isSome_resolve_iff _, isSome_resolve_iff _, fun r => expresses_of_rebase⟩
  simp only [Option.isSome_iff_exists, rebase_eq_some_iff]
  constructor
  · rintro ⟨r, target, base, htarget, hbase, -⟩
    exact ⟨⟨target, htarget⟩, base, hbase⟩
  · rintro ⟨⟨target, htarget⟩, base, hbase⟩
    exact ⟨_, target, base, htarget, hbase, rfl⟩

/-- A folder seen from another one: the way there climbs twice, and it stays closed. -/
theorem rebase_keeps_place_climbing :
    rebase "./libs/ui/../shared//assets/" ⟨""⟩ ⟨"apps/web"⟩ = some "../../libs/shared/assets/" ∧
      Expresses ⟨""⟩ ⟨"apps/web"⟩ "./libs/ui/../shared//assets/" "../../libs/shared/assets/" := by
  have h : rebase "./libs/ui/../shared//assets/" ⟨""⟩ ⟨"apps/web"⟩ =
      some "../../libs/shared/assets/" := by
    decide +kernel
  exact ⟨h, (rebase_keeps_place _ _ _).2.2.2 _ h⟩

theorem isClosed_rebase (h : rebase literal old new = some r) : isClosed r = isClosed literal := by
  obtain ⟨target, base, htarget, -, rfl⟩ := rebase_eq_some_iff.mp h
  exact isClosed_spelling base (spelled_of_mem_resolve htarget) _

/-- Rebasing composes: a path may take the way over a second host.  Back at its own host it has
the spelling that all literals share which reach its place from there and are closed as it is. -/
theorem rebase_rebase (host : Path) (h : rebase literal old new = some r) :
    rebase r new host = rebase literal old host ∧
    rebase r new old = rebase literal old old ∧
    ∃ plain, rebase literal old old = some plain ∧ Expresses old old literal plain ∧
      ∀ other, (old.join ⟨other⟩).resolve = (old.join ⟨literal⟩).resolve →
        isClosed other = isClosed literal → rebase other old old = some plain := by
  obtain ⟨hplace, hsome⟩ := resolve_rebase h
  have hsame (host : Path) : rebase r new host = rebase literal old host :=
    rebase_congr hplace (isClosed_rebase h) host
  obtain ⟨target, htarget⟩ := Option.isSome_iff_exists.mp hsome
  obtain ⟨base, hbase⟩ := Option.isSome_iff_exists.mp (resolve_of_resolve_join hsome)
  have hplain := rebase_eq_some_iff.mpr ⟨target, base, htarget, hbase, rfl⟩
  refine ⟨hsame host, hsame old, _, hplain, expresses_of_rebase hplain, ?_⟩
  intro other hother hclosed
  exact (rebase_congr hother hclosed old).trans hplain

/-- A folder of one project taken to a second and a third one, and back. -/
theorem rebase_rebase_folder :
    rebase "./src/../assets/" ⟨"apps/web"⟩ ⟨"libs"⟩ = some "../apps/web/assets/" ∧
      rebase "../apps/web/assets/" ⟨"libs"⟩ ⟨"apps/api"⟩ =
        rebase "./src/../assets/" ⟨"apps/web"⟩ ⟨"apps/api"⟩ ∧
      rebase "../apps/web/assets/" ⟨"libs"⟩ ⟨"apps/web"⟩ = some "assets/" := by
  have h : rebase "./src/../assets/" ⟨"apps/web"⟩ ⟨"libs"⟩ = some "../apps/web/assets/" := by
    decide +kernel
  obtain ⟨hthird, hback, -⟩ := rebase_rebase ⟨"apps/api"⟩ h
  refine ⟨h, hthird, hback.trans ?_⟩
  decide +kernel

/-! ## Characters of the spelling -/

/-- The characters of a piece stand in the text. -/
theorem mem_of_mem_splitAtAll {p : Char → Bool} {cs piece : List Char} {c : Char}
    (hpiece : piece ∈ Text.splitAtAll p cs) (hc : c ∈ piece) : c ∈ cs := by
  induction cs generalizing piece with
  | nil =>
    rw [List.mem_singleton.mp hpiece] at hc
    cases hc
  | cons x cs ih =>
    rw [Text.splitAtAll] at hpiece
    split at hpiece
    · rcases List.mem_cons.mp hpiece with rfl | hpiece
      · cases hc
      · exact List.mem_cons_of_mem _ (ih hpiece hc)
    · split at hpiece
      · rw [List.mem_singleton.mp hpiece] at hc
        rw [List.mem_singleton.mp hc]
        exact List.mem_cons_self
      · next w ws hsplit =>
        rcases List.mem_cons.mp hpiece with rfl | hpiece
        · rcases List.mem_cons.mp hc with rfl | hc
          · exact List.mem_cons_self
          · exact List.mem_cons_of_mem _ (ih (by rw [hsplit]; exact List.mem_cons_self) hc)
        · exact List.mem_cons_of_mem _
            (ih (by rw [hsplit]; exact List.mem_cons_of_mem _ hpiece) hc)

/-- The names on the way to a path stand in its text. -/
theorem mem_of_mem_resolve {p : Path} {n : String} {c : Char} (h : p.resolve = some target)
    (hn : n ∈ target) (hc : c ∈ n.toList) : c ∈ p.text.toList := by
  have hstep := name_mem_of_mem_resolve h hn
  have hmove : Step.name n ∈ moves (Text.splitAtAll (· == '/') p.text.toList) := by
    rw [location_eq] at hstep
    refine (List.mem_append.mp hstep).resolve_left fun hroot => ?_
    split at hroot
    · cases List.mem_singleton.mp hroot
    · cases hroot
  obtain ⟨piece, hpiece, hspells⟩ := List.mem_filterMap.mp (List.mem_filter.mp hmove).1
  refine mem_of_mem_splitAtAll hpiece ?_
  unfold Step.ofPiece? at hspells
  split at hspells
  · cases hspells
  · split at hspells
    · cases hspells
    · split at hspells
      · cases hspells
      · obtain rfl := Step.name.inj (Option.some.inj hspells)
        simpa using hc

theorem mem_of_mem_intercalate {names : List String} {c : Char}
    (h : c ∈ ("/".intercalate names).toList) : c = '/' ∨ ∃ n ∈ names, c ∈ n.toList := by
  induction names with
  | nil => cases h
  | cons n names ih =>
    cases names with
    | nil => exact .inr ⟨n, List.mem_cons_self, by simpa using h⟩
    | cons m names =>
      rw [String.intercalate_cons_cons, String.toList_append, String.toList_append] at h
      rcases List.mem_append.mp h with h | h
      · rcases List.mem_append.mp h with h | h
        · exact .inr ⟨n, List.mem_cons_self, h⟩
        · exact .inl (List.mem_singleton.mp h)
      · refine (ih h).imp_right ?_
        rintro ⟨k, hk, hc⟩
        exact ⟨k, List.mem_cons_of_mem _ hk, hc⟩

/-- A path of the workspace is spelled for another host with its own characters, dots and
slashes. -/
theorem mem_of_mem_rebase {c : Char} (h : rebase literal ⟨""⟩ new = some r) (hc : c ∈ r.toList) :
    c ∈ literal.toList ∨ c = '.' ∨ c = '/' := by
  obtain ⟨target, base, htarget, -, rfl⟩ := rebase_eq_some_iff.mp h
  have hjoin : (Path.mk "").join ⟨literal⟩ = ⟨literal⟩ := by simp [join]
  rw [hjoin] at htarget
  have hplain (hc : c ∈ (plainly target base).toList) :
      c ∈ literal.toList ∨ c = '.' ∨ c = '/' := by
    unfold plainly at hc
    split at hc
    · exact .inr (.inl (List.mem_singleton.mp hc))
    · rcases mem_of_mem_intercalate hc with rfl | ⟨n, hn, hc⟩
      · exact .inr (.inr rfl)
      · rcases List.mem_append.mp hn with hn | hn
        · obtain ⟨-, -, rfl⟩ := List.mem_map.mp hn
          exact .inr (.inl (by simpa using hc))
        · obtain ⟨common, hsplit, -⟩ := dropCommon_spec target base
          refine .inl (mem_of_mem_resolve htarget ?_ hc)
          rw [hsplit]
          exact List.mem_append_right _ hn
  unfold spelling at hc
  split at hc
  · rw [String.toList_append] at hc
    rcases List.mem_append.mp hc with hc | hc
    · exact hplain hc
    · exact .inr (.inr (List.mem_singleton.mp hc))
  · exact hplain hc

end Path

end Retarget
