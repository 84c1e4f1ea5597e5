import Retarget.Proofs.Path.Rebasing

/-!
# Archives of different files

The steps of a text are marked piece by piece, so what is marked up to the end of a step is what the
text up to there says (`Path.marks_take`), and a name behind a path is one more step
(`Path.marks_join`).  Hence an archive has the parent of its file, as it is written there, and only
the last step is another one.  With a plain suffix it keeps the extension of its file, and no other
file has the same archive (`PluginConfig.archives_apart`).
-/

namespace Retarget

namespace Path

variable {cs : List Char} {ms rest : List (Step × Nat)} {x : Step × Nat} {p b : Path}
  {name : String}

/-! ## Marks -/

/-- A text is a piece, or a piece behind a slash. -/
theorem piece_induction {P : List Char → Prop} (hpiece : ∀ w, '/' ∉ w → P w)
    (hslash : ∀ a w, '/' ∉ w → P a → P (a ++ '/' :: w)) (cs : List Char) : P cs := by
  by_cases hslashed : '/' ∈ cs
  · obtain ⟨w, a, hrev, hw⟩ := List.eq_append_cons_of_mem (List.mem_reverse.mpr hslashed)
    have hcs : cs = a.reverse ++ '/' :: w.reverse := by
      rw [← List.reverse_reverse cs, hrev]
      simp
    have hless : a.reverse.length < cs.length := by
      rw [hcs, List.length_append, List.length_cons]
      omega
    rw [hcs]
    exact hslash _ _ (by simpa using hw) (piece_induction hpiece hslash a.reverse)
  · exact hpiece cs hslashed
termination_by cs.length

theorem splitAtAll_piece {w : List Char} (hw : '/' ∉ w) :
    Text.splitAtAll (· == '/') w = [w] := by
  refine Text.splitAtAll_of_none fun c hc => ?_
  rw [beq_eq_false_iff_ne]
  rintro rfl
  exact hw hc

theorem mark_cons (first : Bool) (pos : Nat) (w : List Char) (more : List (List Char)) :
    mark first pos (w :: more) = mark first pos [w] ++ mark false (pos + w.length + 1) more := by
  simp only [mark]
  cases Step.ofPiece? w with
  | none => rfl
  | some s =>
    cases s with
    | here =>
      cases first with
      | true => rfl
      | false => rfl
    | root => rfl
    | up => rfl
    | name n => rfl

/-- A piece is one step or none. -/
theorem mark_piece (first : Bool) (pos : Nat) (w : List Char) :
    mark first pos [w] = [] ∨ ∃ s, mark first pos [w] = [(s, pos + w.length)] := by
  simp only [mark]
  cases Step.ofPiece? w with
  | none => exact .inl rfl
  | some s =>
    cases s with
    | here =>
      cases first with
      | true => exact .inr ⟨.here, rfl⟩
      | false => exact .inl rfl
    | root => exact .inr ⟨.root, rfl⟩
    | up => exact .inr ⟨.up, rfl⟩
    | name n => exact .inr ⟨.name n, rfl⟩

theorem mark_splitAtAll_append (first : Bool) (pos : Nat) (a : List Char)
    (more : List (List Char)) :
    mark first pos (Text.splitAtAll (· == '/') a ++ more) =
      mark first pos (Text.splitAtAll (· == '/') a) ++ mark false (pos + a.length + 1) more := by
  induction a using piece_induction generalizing more with
  | hpiece w hw =>
    rw [splitAtAll_piece hw]
    exact mark_cons first pos w more
  | hslash a w hw ih =>
    rw [Text.splitAtAll_append (by rfl), splitAtAll_piece hw, List.append_assoc, ih, ih,
      List.singleton_append, mark_cons, List.append_assoc, List.length_append, List.length_cons]
    congr 4
    omega

theorem marks_eq (cs : List Char) :
    marks cs = (if cs.head? = some '/' then [(.root, 1)] else []) ++
      mark (cs.head? ≠ some '/') 0 (Text.splitAtAll (· == '/') cs) := by
  by_cases hhead : cs.head? = some '/'
  · obtain ⟨rest, rfl⟩ := List.head?_eq_some_iff.mp hhead
    rfl
  · rw [Location.marks_of_head?_ne hhead, if_neg hhead, List.nil_append, decide_eq_true hhead]

/-- The steps before a slash, and those behind it. -/
theorem marks_append_slash (a b : List Char) :
    marks (a ++ '/' :: b) = (if a = [] then [(.root, 1)] else marks a) ++
      mark false (a.length + 1) (Text.splitAtAll (· == '/') b) := by
  rw [marks_eq, Text.splitAtAll_append (by rfl), mark_splitAtAll_append, Nat.zero_add]
  by_cases ha : a = []
  · subst ha
    rfl
  · have hhead : (a ++ '/' :: b).head? = a.head? := by
      obtain ⟨c, a, rfl⟩ := List.exists_cons_of_ne_nil ha
      rfl
    rw [if_neg ha, hhead, ← List.append_assoc, ← marks_eq]

theorem marks_piece {w : List Char} (hw : '/' ∉ w) : marks w = mark true 0 [w] := by
  rw [Location.marks_of_head?_ne, splitAtAll_piece hw]
  exact fun hhead => hw (List.mem_of_mem_head? hhead)

/-- A text up to the end of a step says the steps up to there. -/
theorem marks_take (h : ms <+: marks cs) (hlast : ms.getLast? = some x) :
    x.2 ≤ cs.length ∧ marks (cs.take x.2) = ms := by
  have hne : ms ≠ [] := by
    rintro rfl
    cases hlast
  have hsingle {y : Step × Nat} (hms : ms <+: [y]) : ms = [y] := by
    obtain ⟨t, rfl, ht⟩ := (List.prefix_cons_iff.mp hms).resolve_left hne
    rw [List.prefix_nil.mp ht]
  -- the last of the steps may end with the text
  have hwhole {cs : List Char} {init : List (Step × Nat)} {s : Step}
      (hall : marks cs = init ++ [(s, cs.length)]) (hms : ms = init ++ [(s, cs.length)]) :
      x.2 ≤ cs.length ∧ marks (cs.take x.2) = ms := by
    rw [hms, List.getLast?_concat] at hlast
    obtain rfl := Option.some.inj hlast
    rw [List.take_length, hall, hms]
    exact ⟨Nat.le_refl _, rfl⟩
  induction cs using piece_induction with
  | hpiece w hw =>
    rcases mark_piece true 0 w with hnone | ⟨s, hs⟩
    · rw [marks_piece hw, hnone] at h
      exact absurd (List.prefix_nil.mp h) hne
    · rw [Nat.zero_add, ← marks_piece hw] at hs
      exact @hwhole w [] s hs (hsingle (hs ▸ h))
  | hslash a w hw ih =>
    have hmarks := marks_append_slash a w
    rw [splitAtAll_piece hw] at hmarks
    have hbefore (hms : ms <+: if a = [] then [(.root, 1)] else marks a) :
        x.2 ≤ (a ++ '/' :: w).length ∧ marks ((a ++ '/' :: w).take x.2) = ms := by
      by_cases ha : a = []
      · subst ha
        rw [if_pos rfl] at hms
        obtain rfl := hsingle hms
        obtain rfl := Option.some.inj hlast
        exact ⟨Nat.succ_le_succ (Nat.zero_le _), rfl⟩
      · rw [if_neg ha] at hms
        obtain ⟨hle, htake⟩ := ih hms
        rw [List.length_append, List.take_append_of_le_length hle]
        exact ⟨Nat.le_add_right_of_le hle, htake⟩
    rcases mark_piece false (a.length + 1) w with hnone | ⟨s, hs⟩
    · rw [hmarks, hnone, List.append_nil] at h
      exact hbefore h
    · have hend : a.length + 1 + w.length = (a ++ '/' :: w).length := by
        rw [List.length_append, List.length_cons]
        omega
      rw [hs, hend] at hmarks
      rw [hmarks] at h
      rcases List.prefix_concat_iff.mp h with hms | hms
      · exact hwhole hmarks hms
      · exact hbefore hms

/-! ## Parents -/

theorem relative_of_spelled (hname : (Step.name name).Spelled) :
    Path.isAbsolute ⟨name⟩ = false := by
  simp only [isAbsolute, decide_eq_false_iff_not]
  exact fun hhead => hname.no_slash (List.mem_of_mem_head? hhead)

/-- A name below a path is one more step, which ends with the text. -/
theorem marks_join (b : Path) (hname : (Step.name name).Spelled) :
    marks (b.join ⟨name⟩).text.toList =
      marks b.text.toList ++ [(.name name, (b.join ⟨name⟩).text.toList.length)] := by
  have hslash : '/' ∉ name.toList := hname.no_slash
  have hpiece (first : Bool) (pos : Nat) :
      mark first pos [name.toList] = [(.name name, pos + name.toList.length)] := by
    have hread : Step.ofPiece? name.toList = some (.name name) := hname.read
    rw [mark, hread]
    rfl
  have hbehind (a : List Char) : marks (a ++ '/' :: name.toList) =
      (if a = [] then [(.root, 1)] else marks a) ++
        [(.name name, (a ++ '/' :: name.toList).length)] := by
    rw [marks_append_slash, splitAtAll_piece hslash, hpiece, List.length_append, List.length_cons]
    congr 3
    omega
  unfold join
  rw [relative_of_spelled hname, Bool.false_or]
  by_cases hempty : b.text = ""
  · rw [if_pos (by simpa using hempty), hempty, marks_piece hslash, hpiece, Nat.zero_add]
    rfl
  · rw [if_neg (by simpa using hempty)]
    split
    · next hlast =>
      -- the slash is there already
      obtain ⟨init, hinit⟩ := List.getLast?_eq_some_iff.mp hlast
      have hclosed : marks (init ++ ['/']) = if init = [] then [(.root, 1)] else marks init := by
        rw [marks_append_slash]
        exact List.append_nil _
      rw [String.toList_append, hinit, List.append_assoc, List.singleton_append, hbehind, hclosed]
    · have hne : b.text.toList ≠ [] := by simpa using hempty
      have hbar : ("/" : String).toList = ['/'] := rfl
      rw [String.toList_append, String.toList_append, hbar, List.append_assoc,
        List.singleton_append, hbehind, if_neg hne]

/-- A path that ends with its last step. -/
def Trimmed (b : Path) : Prop :=
  b.text = "" ∨ ∃ s, (marks b.text.toList).getLast? = some (s, b.text.toList.length)

/-- The parent of a file says the steps before its name. -/
theorem exists_parent (h : p.fileName? = some name) :
    ∃ b n, p.parent? = some b ∧ b.Trimmed ∧
      marks p.text.toList = marks b.text.toList ++ [(.name name, n)] := by
  obtain ⟨ms, n, hmarks⟩ : ∃ ms n, marks p.text.toList = ms ++ [(.name name, n)] := by
    unfold fileName? steps at h
    split at h
    · next s hlast =>
      obtain rfl := Option.some.inj h
      rw [List.getLast?_map] at hlast
      obtain ⟨⟨s, n⟩, hlast, rfl⟩ := Option.map_eq_some_iff.mp hlast
      obtain ⟨ms, hms⟩ := List.getLast?_eq_some_iff.mp hlast
      exact ⟨ms, n, hms⟩
    · cases h
  unfold parent?
  rw [hmarks, List.reverse_concat]
  rcases List.eq_nil_or_concat ms with rfl | ⟨init, x, hms⟩
  · exact ⟨⟨""⟩, n, rfl, .inl rfl, rfl⟩
  · obtain rfl : ms = init ++ [x] := by simpa using hms
    have hprefix : init ++ [x] <+: marks p.text.toList := by
      rw [hmarks]
      exact List.prefix_append _ _
    obtain ⟨hle, htake⟩ := marks_take hprefix List.getLast?_concat
    rw [List.reverse_concat]
    refine ⟨⟨String.ofList (p.text.toList.take x.2)⟩, n, rfl, .inr ⟨x.1, ?_⟩, ?_⟩
    · rw [String.toList_ofList, htake, List.getLast?_concat, List.length_take_of_le hle]
    · rw [String.toList_ofList, htake]

/-- A name below a path has that path as its parent. -/
theorem parent?_join (hb : b.Trimmed) (hname : (Step.name name).Spelled) :
    (b.join ⟨name⟩).parent? = some b := by
  unfold parent?
  rw [marks_join b hname, List.reverse_concat]
  rcases hb with hempty | ⟨s, hs⟩
  · obtain rfl : b = ⟨""⟩ := congrArg Path.mk hempty
    rfl
  · obtain ⟨init, hinit⟩ := List.getLast?_eq_some_iff.mp hs
    obtain ⟨tail, htail⟩ : ∃ tail, (b.join ⟨name⟩).text.toList = b.text.toList ++ tail := by
      unfold join
      rw [relative_of_spelled hname, Bool.false_or]
      split
      · next hempty => exact ⟨name.toList, by simp [of_decide_eq_true hempty]⟩
      · split
        · exact ⟨name.toList, String.toList_append⟩
        · exact ⟨('/' :: name.toList), by simp⟩
    rw [hinit, List.reverse_concat, htail]
    simp

theorem name_mem_location (h : p.fileName? = some name) : Step.name name ∈ p.location := by
  have hlast : p.steps.getLast? = some (.name name) := by
    unfold fileName? at h
    split at h
    · next s hs =>
      obtain rfl := Option.some.inj h
      exact hs
    · cases h
  exact List.mem_filter.mpr ⟨List.mem_of_getLast? hlast, by simp⟩

theorem location_of_steps {outer : List Step} (h : p.steps = outer ++ [.name name]) :
    p.location = outer.filter (· ≠ .here) ++ [.name name] := by
  rw [location, h, List.filter_append]
  rfl

end Path

namespace PluginConfig

variable {c : PluginConfig} {p q : Path} {name ext : String}

/-- An archive has the name of its file replaced. -/
theorem archivePath_eq (c : PluginConfig) (h : p.fileName? = some name) :
    c.archivePath p = (p.parent?.getD ⟨""⟩).join ⟨c.archiveName name⟩ := by
  unfold archivePath archiveName Path.fileStem? Path.extension? Path.withFileName
  rw [h]
  rfl

/-- An archive stands where its file does, and only its last step is another one. -/
theorem archivePath_spec (hc : c.PlainSuffix) (h : p.fileName? = some name) :
    (c.archivePath p).parent? = p.parent? ∧ ∃ outer, p.steps = outer ++ [.name name] ∧
      (c.archivePath p).steps = outer ++ [.name (c.archiveName name)] := by
  obtain ⟨b, n, hparent, htrimmed, hmarks⟩ := Path.exists_parent h
  have hname := spelled_archiveName hc (Path.spelled_of_mem_location (Path.name_mem_location h))
  rw [archivePath_eq c h, hparent, Option.getD_some]
  refine ⟨Path.parent?_join htrimmed hname, b.steps, ?_, ?_⟩
  · rw [Path.steps, hmarks, List.map_append]
    rfl
  · rw [Path.steps, Path.marks_join b hname, List.map_append]
    rfl

/-- The suffix goes before the extension, so that stays the last one. -/
theorem splitExtension_archiveName (c : PluginConfig) {after : List Char}
    (h : (Path.splitExtension name.toList).2 = some after) :
    (Path.splitExtension (c.archiveName name).toList).2 = some after := by
  rcases Path.splitExtension_cases name.toList with
    ⟨before, after', hsplit, -, hbefore, hdot⟩ | ⟨hsplit, -⟩
  · obtain rfl : after' = after := by
      rw [hsplit] at h
      exact Option.some.inj h
    have harchive : (c.archiveName name).toList =
        (before ++ '.' :: c.archiveSuffix.toList) ++ '.' :: after' := by
      simp [archiveName, hsplit]
    rw [harchive]
    rcases Path.splitExtension_cases
        ((before ++ '.' :: c.archiveSuffix.toList) ++ '.' :: after') with
      ⟨stem, last, hagain, hchars, -, hlast⟩ | ⟨-, hnone⟩
    · obtain ⟨-, rfl⟩ := Path.eq_of_append_dot hchars hdot hlast
      rw [hagain]
    · exact absurd (hnone _ _ rfl hdot) (by simp)
  · rw [hsplit] at h
    cases h

/-- The suffix that a valid profile gives is a plain name. -/
theorem plainSuffix_of_valid {profile : Profile} (hvalid : profile.validate = .ok ())
    (hsuffix : c.archiveSuffix = profile.archiveSuffix) : c.PlainSuffix := by
  obtain ⟨hne, hdot, hslash⟩ := Profile.plainSuffix_of_validate hvalid
  have hsame : profile.config.archiveSuffix = c.archiveSuffix := hsuffix.symm
  rw [hsame] at hne hdot hslash
  exact ⟨hne, hdot, hslash⟩

/-- Archives in the same place are archives of the same name there. -/
theorem append_archiveName_inj (hc : c.PlainSuffix) {outer outer' : List Step} {name' : String} :
    outer ++ [.name (c.archiveName name)] = outer' ++ [.name (c.archiveName name')] ↔
      outer ++ [.name name] = outer' ++ [.name name'] := by
  constructor
  · intro h
    obtain ⟨rfl, hlast⟩ := List.append_inj' h rfl
    have hname : c.archiveName name = c.archiveName name' := by simpa using hlast
    rw [archiveName_injective hc hname]
  · intro h
    obtain ⟨rfl, hlast⟩ := List.append_inj' h rfl
    have hname : name = name' := by simpa using hlast
    rw [hname]

/-- With the suffix of a valid profile, the archive of a file has the same parent, is another file,
and keeps the extension if there is one.  Two files have the same archive only if they are the same:
if their paths have the same steps, and also if they only lead to the same place. -/
theorem archives_apart {profile : Profile} (hvalid : profile.validate = .ok ())
    (hsuffix : c.archiveSuffix = profile.archiveSuffix) (hp : p.fileName?.isSome)
    (hq : q.fileName?.isSome) :
    ((c.archivePath p).parent? = p.parent? ∧ p.parent?.isSome) ∧
      ((c.archivePath p).steps ≠ p.steps ∧ (c.archivePath p).location ≠ p.location) ∧
      (∀ ext, p.extension? = some ext → (c.archivePath p).extension? = some ext) ∧
      ((c.archivePath p).steps = (c.archivePath q).steps ↔ p.steps = q.steps) ∧
      ((c.archivePath p).location = (c.archivePath q).location ↔ p.location = q.location) := by
  have hc := plainSuffix_of_valid hvalid hsuffix
  obtain ⟨name, hname⟩ := Option.isSome_iff_exists.mp hp
  obtain ⟨name', hname'⟩ := Option.isSome_iff_exists.mp hq
  obtain ⟨hparent, outer, hsteps, harchive⟩ := archivePath_spec hc hname
  obtain ⟨-, outer', hsteps', harchive'⟩ := archivePath_spec hc hname'
  have hplace := Path.location_of_steps hsteps
  have hplace' := Path.location_of_steps harchive
  refine ⟨⟨hparent, ?_⟩, ⟨?_, ?_⟩, ?_, ?_, ?_⟩
  · obtain ⟨b, -, hb, -⟩ := Path.exists_parent hname
    rw [hb]
    rfl
  · rw [harchive, hsteps]
    simpa using archiveName_ne c name
  · rw [hplace', hplace]
    simpa using archiveName_ne c name
  · intro ext hext
    have hfile : (c.archivePath p).fileName? = some (c.archiveName name) := by
      rw [Path.fileName?, harchive, List.getLast?_concat]
    rw [Path.extension?, hname] at hext
    obtain ⟨after, hafter, rfl⟩ := Option.map_eq_some_iff.mp hext
    rw [Path.extension?, hfile, Option.bind_some, splitExtension_archiveName c hafter]
    rfl
  · rw [harchive, harchive', hsteps, hsteps']
    exact append_archiveName_inj hc
  · rw [hplace', hplace, Path.location_of_steps harchive', Path.location_of_steps hsteps']
    exact append_archiveName_inj hc

/-- A name with several dots under a closing slash, and one that ends with a dot. -/
theorem archives_apart_dotted :
    Profile.webpack.validate = .ok () ∧ (Path.mk "a//.w.config.js/").fileName?.isSome ∧
      (Path.mk "./a/.w.").fileName?.isSome ∧
      (Profile.webpack.config.archivePath ⟨"a//.w.config.js/"⟩).parent? = some ⟨"a"⟩ ∧
      (Profile.webpack.config.archivePath ⟨"a//.w.config.js/"⟩).extension? = some "js" ∧
      (Profile.webpack.config.archivePath ⟨"./a/.w."⟩).extension? = some "" ∧
      (Profile.webpack.config.archivePath ⟨"a//.w.config.js/"⟩).location ≠
        (Profile.webpack.config.archivePath ⟨"./a/.w."⟩).location ∧
      Profile.webpack.config.archivePath ⟨"./a/.w."⟩ = ⟨"./a/.w.old."⟩ := by
  have hvalid : Profile.webpack.validate = .ok () := rfl
  have hp : (Path.mk "a//.w.config.js/").fileName?.isSome := by decide
  have hq : (Path.mk "./a/.w.").fileName?.isSome := by decide
  obtain ⟨⟨hparent, -⟩, -, hext, -, hplace⟩ :=
    archives_apart (c := Profile.webpack.config) hvalid rfl hp hq
  obtain ⟨-, -, hext', -⟩ := archives_apart (c := Profile.webpack.config) hvalid rfl hq hp
  refine ⟨hvalid, hp, hq, ?_, ?_, ?_, ?_, ?_⟩
  · rw [hparent]
    decide
  · exact hext "js" (by decide)
  · exact hext' "" (by decide)
  · rw [Ne, hplace]
    decide
  · decide

end PluginConfig

end Retarget
