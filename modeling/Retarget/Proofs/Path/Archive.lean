import Retarget.Profile
import Retarget.Proofs.Path.Spelling

/-!
# Where a config is archived

The archive of a file stands in the same folder under another name: the suffix goes
before the extension.  If the suffix is a plain name, as it is in a valid profile,
different names have different archive names.
-/

namespace Retarget

namespace Location

variable {rest init : List Step} {s : Step} {name : String}

/-- Marking one more step. -/
theorem ends_append (pos : Nat) (s : Step) (h : ∀ s ∈ rest, s.Spelled) :
    ends pos (rest ++ [s]) = ends pos rest ++ [(s, pos + (chars (rest ++ [s])).length)] := by
  induction rest generalizing pos with
  | nil => simp [ends, chars]
  | cons u rest ih =>
    have hu := h u List.mem_cons_self
    have hrest := fun x hx => h x (List.mem_cons_of_mem _ hx)
    have hchars : chars (u :: rest ++ [s]) = u.text.toList ++ '/' :: chars (rest ++ [s]) := by
      cases rest with
      | nil => exact chars_cons_cons hu s
      | cons v rest => exact chars_cons_cons hu v
    rw [hchars, List.cons_append, ends, ih _ hrest, ends, List.cons_append]
    simp only [List.length_append, List.length_cons]
    congr 4
    omega

/-- The plainest spelling of a longer location. -/
theorem chars_append (h : ∀ s ∈ rest, s.Spelled) (hne : rest ≠ []) (s : Step) :
    chars (rest ++ [s]) = chars rest ++ '/' :: s.text.toList := by
  induction rest with
  | nil => exact absurd rfl hne
  | cons u rest ih =>
    have hu := h u List.mem_cons_self
    cases rest with
    | nil => rw [List.cons_append, List.nil_append, chars_cons_cons hu]; rfl
    | cons v rest =>
      rw [List.cons_append, List.cons_append, chars_cons_cons hu, chars_cons_cons hu]
      rw [← List.cons_append, ih (fun x hx => h x (List.mem_cons_of_mem _ hx)) (by simp),
        List.append_assoc, List.cons_append]

theorem chars_ne_nil (h : ∀ s ∈ rest, s.Spelled) (hne : rest ≠ []) : chars rest ≠ [] := by
  intro hnil
  have hsplit := splitAtAll_chars h hne
  rw [hnil] at hsplit
  obtain ⟨s, rest', rfl⟩ := List.exists_cons_of_ne_nil hne
  have hs := (h s List.mem_cons_self).text_ne_nil
  simp only [Text.splitAtAll, List.map_cons, List.cons.injEq] at hsplit
  exact hs hsplit.1.symm

/-- A spelling ends with a slash only if it is that of the root. -/
theorem getLast?_chars_ne_slash (h : ∀ s ∈ rest, s.Spelled) :
    (chars rest).getLast? ≠ some '/' := by
  intro hlast
  obtain ⟨cs, hcs⟩ := List.getLast?_eq_some_iff.mp hlast
  have hne : rest ≠ [] := by
    rintro rfl
    simp [chars] at hcs
  obtain ⟨init, s, rfl⟩ : ∃ init s, rest = init ++ [s] :=
    ⟨_, _, (List.dropLast_concat_getLast hne).symm⟩
  have hs := h s (by simp)
  have htext : s.text.toList.getLast? = some '/' := by
    by_cases hinit : init = []
    · subst hinit
      simpa [chars] using hlast
    · rw [chars_append (fun x hx => h x (by simp [hx])) hinit] at hlast
      rw [List.getLast?_append, List.getLast?_cons] at hlast
      cases hlast' : s.text.toList.getLast? with
      | none => exact absurd (List.getLast?_eq_none_iff.mp hlast') hs.text_ne_nil
      | some c => simpa [hlast'] using hlast
  exact hs.no_slash (List.mem_of_getLast? htext)

/-- The parent of a place. -/
theorem parent?_path (h : WellSpelled (init ++ [.name name])) :
    (path (init ++ [.name name])).parent? = some (path init) := by
  obtain ⟨rest, hrest | hrest, hspelled⟩ := h
  · subst hrest
    have hinit : ∀ s ∈ init, s.Spelled := fun s hs => hspelled s (by simp [hs])
    simp only [Path.parent?, path, String.toList_ofList, marks_chars hspelled,
      ends_append 0 _ hinit, List.reverse_append, List.reverse_singleton, List.singleton_append]
    by_cases hne : init = []
    · subst hne
      rfl
    · obtain ⟨outer, s, rfl⟩ : ∃ outer s, init = outer ++ [s] :=
        ⟨_, _, (List.dropLast_concat_getLast hne).symm⟩
      have houter : ∀ s ∈ outer, s.Spelled := fun x hx => hinit x (by simp [hx])
      rw [ends_append 0 s houter, List.reverse_append, List.reverse_singleton,
        List.singleton_append, chars_append hinit hne]
      simp
  · obtain ⟨rest', rfl, rfl⟩ : ∃ rest', init = .root :: rest' ∧ rest = rest' ++ [.name name] := by
      cases init with
      | nil => simp at hrest
      | cons s init =>
        obtain ⟨rfl, rfl⟩ : s = .root ∧ init ++ [.name name] = rest := by simpa using hrest
        exact ⟨init, rfl, rfl⟩
    have hinit : ∀ s ∈ rest', s.Spelled := fun s hs => hspelled s (by simp [hs])
    rw [List.cons_append]
    simp only [Path.parent?, path, String.toList_ofList, marks_root_chars hspelled,
      ends_append 1 _ hinit, List.reverse_cons, List.reverse_append]
    by_cases hne : rest' = []
    · subst hne
      rfl
    · obtain ⟨outer, s, rfl⟩ : ∃ outer s, rest' = outer ++ [s] :=
        ⟨_, _, (List.dropLast_concat_getLast hne).symm⟩
      have houter : ∀ s ∈ outer, s.Spelled := fun x hx => hinit x (by simp [hx])
      rw [ends_append 1 s houter, List.reverse_append, List.reverse_singleton,
        List.singleton_append, chars_root_cons, chars_root_cons, chars_append hinit hne]
      simp [Nat.add_comm 1]

theorem WellSpelled.append_name (h : WellSpelled init) (hname : (Step.name name).Spelled) :
    WellSpelled (init ++ [.name name]) := by
  obtain ⟨rest, rfl | rfl, hrest⟩ := h
  · refine wellSpelled_of_all fun s hs => ?_
    rcases List.mem_append.mp hs with hs | hs
    · exact hrest s hs
    · rwa [List.mem_singleton.mp hs]
  · refine ⟨rest ++ [.name name], .inr rfl, fun s hs => ?_⟩
    rcases List.mem_append.mp hs with hs | hs
    · exact hrest s hs
    · rwa [List.mem_singleton.mp hs]

theorem WellSpelled.init_and_name (h : WellSpelled (init ++ [.name name])) :
    WellSpelled init ∧ (Step.name name).Spelled := by
  obtain ⟨rest, rfl | hrest, hspelled⟩ := h
  · exact ⟨wellSpelled_of_all fun s hs => hspelled s (by simp [hs]), hspelled _ (by simp)⟩
  · cases init with
    | nil => simp at hrest
    | cons s init =>
      obtain ⟨rfl, rfl⟩ : s = .root ∧ init ++ [.name name] = rest := by simpa using hrest
      exact ⟨⟨init, .inr rfl, fun s hs => hspelled s (by simp [hs])⟩, hspelled _ (by simp)⟩

/-- Going on with a name. -/
theorem join_path (h : WellSpelled init) (hname : (Step.name name).Spelled) :
    (path init).join ⟨name⟩ = path (init ++ [.name name]) := by
  have hrelative : Path.isAbsolute ⟨name⟩ = false := by
    obtain ⟨c, cs, hcs⟩ := List.exists_cons_of_ne_nil hname.text_ne_nil
    have hslash := hname.no_slash
    rw [Step.text] at hcs hslash
    simp only [Path.isAbsolute, hcs, List.head?_cons, Option.some.injEq, decide_eq_false_iff_not]
    rintro rfl
    exact hslash (by simp [hcs])
  unfold Path.join
  rw [hrelative, Bool.false_or]
  obtain ⟨rest, rfl | rfl, hrest⟩ := h
  · by_cases hne : init = []
    · subst hne
      simp [path, chars, Step.text]
    · have htext : (path init).text ≠ "" := by
        simpa [path] using chars_ne_nil hrest hne
      have hlast : (path init).text.toList.getLast? ≠ some '/' := by
        simpa [path] using getLast?_chars_ne_slash hrest
      simp only [htext, hlast, decide_false, Bool.false_eq_true, if_false]
      simp only [path, chars_append hrest hne, Path.mk.injEq]
      apply String.ext
      simp [Step.text]
  · have htext : (path (.root :: rest)).text ≠ "" := by
      simp [path, chars_root_cons]
    simp only [htext, decide_false, Bool.false_eq_true, if_false]
    by_cases hne : rest = []
    · subst hne
      simp only [path]
      apply congrArg Path.mk
      apply String.ext
      simp [chars, Step.text]
    · have hlast : (path (.root :: rest)).text.toList.getLast? ≠ some '/' := by
        obtain ⟨c, cs, hcs⟩ := List.exists_cons_of_ne_nil (chars_ne_nil hrest hne)
        have := getLast?_chars_ne_slash hrest
        rw [hcs] at this
        simpa [path, chars_root_cons, hcs] using this
      simp only [hlast, if_false]
      rw [List.cons_append]
      simp only [path, chars_root_cons, chars_append hrest hne, Path.mk.injEq]
      apply String.ext
      simp [Step.text]

end Location

namespace Path

/-- A text has one last dot only. -/
theorem eq_of_append_dot {x y a b : List Char} (h : x ++ '.' :: a = y ++ '.' :: b)
    (ha : '.' ∉ a) (hb : '.' ∉ b) : x = y ∧ a = b := by
  rcases List.append_eq_append_iff.mp h with ⟨zs, rfl, hz⟩ | ⟨zs, rfl, hz⟩
  · cases zs with
    | nil => simpa using hz
    | cons z zs =>
      obtain ⟨-, rfl⟩ := List.cons.inj hz
      exact absurd (by simp) ha
  · cases zs with
    | nil => simpa using hz.symm
    | cons z zs =>
      obtain ⟨-, rfl⟩ := List.cons.inj hz
      exact absurd (by simp) hb

/-- A name is split at its last dot, unless nothing stands before that. -/
theorem splitExtension_cases (cs : List Char) :
    (∃ before after, splitExtension cs = (before, some after) ∧ cs = before ++ '.' :: after ∧
        before ≠ [] ∧ '.' ∉ after) ∨
      (splitExtension cs = (cs, none) ∧
        ∀ before after, cs = before ++ '.' :: after → '.' ∉ after → before = []) := by
  generalize hafter : (cs.reverse.takeWhile (· ≠ '.')).reverse = after
  have hdotless : '.' ∉ after := by
    rw [← hafter, List.mem_reverse]
    intro hdot
    have hall := List.all_eq_true.mp (List.all_takeWhile (p := (· ≠ '.')) (l := cs.reverse))
    simpa using hall '.' hdot
  have hcs : cs = (cs.reverse.dropWhile (· ≠ '.')).reverse ++ after := by
    rw [← hafter, ← List.reverse_append, List.takeWhile_append_dropWhile, List.reverse_reverse]
  unfold splitExtension
  simp only [hafter]
  cases hdrop : cs.reverse.dropWhile (· ≠ '.') with
  | nil =>
    rw [hdrop, List.reverse_nil, List.nil_append] at hcs
    subst hcs
    refine .inr ⟨by simp, ?_⟩
    intro before after hsplit _
    exact absurd (hsplit ▸ hdotless) (by simp)
  | cons c rest =>
    have hc : c = '.' := by
      have := List.head?_dropWhile_not (p := (· ≠ '.')) (l := cs.reverse)
      rw [hdrop] at this
      simpa using this
    subst hc
    rw [hdrop, List.reverse_cons, List.append_assoc, List.singleton_append] at hcs
    have hbefore : cs.take (cs.length - after.length - 1) = rest.reverse := by
      have hlen : cs.length - after.length - 1 = rest.reverse.length := by
        rw [hcs]
        simp only [List.length_append, List.length_cons]
        omega
      rw [hlen, hcs, List.take_left]
    have hlength : after.length ≠ cs.length := by
      rw [hcs]
      simp only [List.length_append, List.length_cons]
      omega
    rw [hbefore]
    by_cases hnil : rest.reverse = []
    · refine .inr ⟨by simp [hnil], ?_⟩
      intro before after' hsplit hafter'
      rw [hcs] at hsplit
      rw [← (eq_of_append_dot hsplit hdotless hafter').1, hnil]
    · exact .inl ⟨_, _, by simp [hnil, hlength], hcs, hnil, hdotless⟩

end Path

namespace PluginConfig

/-- The name that a file is archived under. -/
def archiveName (c : PluginConfig) (name : String) : String :=
  let parts := Path.splitExtension name.toList
  match parts.2.map String.ofList with
  | some e => String.ofList parts.1 ++ "." ++ c.archiveSuffix ++ "." ++ e
  | none => String.ofList parts.1 ++ "." ++ c.archiveSuffix

/-- A suffix that is a plain name. -/
structure PlainSuffix (c : PluginConfig) : Prop where
  ne_empty : c.archiveSuffix ≠ ""
  no_dot : '.' ∉ c.archiveSuffix.toList
  no_slash : '/' ∉ c.archiveSuffix.toList

variable {c : PluginConfig} {name : String} {init : Location}

/-- The suffix goes before the extension, or to the end. -/
theorem toList_archiveName (c : PluginConfig) (name : String) :
    (∃ before after, name.toList = before ++ '.' :: after ∧ before ≠ [] ∧ '.' ∉ after ∧
        (c.archiveName name).toList = (before ++ '.' :: c.archiveSuffix.toList) ++ '.' :: after) ∨
      ((∀ before after, name.toList = before ++ '.' :: after → '.' ∉ after → before = []) ∧
        (c.archiveName name).toList = name.toList ++ '.' :: c.archiveSuffix.toList) := by
  rcases Path.splitExtension_cases name.toList with
    ⟨before, after, hsplit, hname, hbefore, hafter⟩ | ⟨hsplit, hdots⟩
  · exact .inl ⟨before, after, hname, hbefore, hafter, by simp [archiveName, hsplit]⟩
  · exact .inr ⟨hdots, by simp [archiveName, hsplit]⟩

theorem spelled_archiveName (hc : c.PlainSuffix) (hname : (Step.name name).Spelled) :
    (Step.name (c.archiveName name)).Spelled := by
  obtain ⟨x, xs, hx⟩ := List.exists_cons_of_ne_nil (l := c.archiveSuffix.toList)
    (by simpa using hc.ne_empty)
  have hxdot : x ≠ '.' := by
    rintro rfl
    exact hc.no_dot (by simp [hx])
  have hmem : x ∈ (c.archiveName name).toList := by
    rcases toList_archiveName c name with ⟨_, _, -, -, -, h⟩ | ⟨-, h⟩
    · simp [h, hx]
    · simp [h, hx]
  refine Step.spelled_name ?_ ?_ ?_ ?_
  · intro h
    simp [h] at hmem
  · intro h
    simp [h, hxdot] at hmem
  · intro h
    simp [h, hxdot] at hmem
  · have hslash := hname.no_slash
    simp only [Step.text] at hslash
    rcases toList_archiveName c name with ⟨before, after, heq, -, -, h⟩ | ⟨-, h⟩
    · rw [heq] at hslash
      simp only [h, List.mem_append, List.mem_cons, not_or] at hslash ⊢
      exact ⟨⟨hslash.1, by decide, hc.no_slash⟩, hslash.2⟩
    · simp only [h, List.mem_append, List.mem_cons, not_or]
      exact ⟨hslash, by decide, hc.no_slash⟩

theorem archiveName_ne (c : PluginConfig) (name : String) : c.archiveName name ≠ name := by
  intro h
  rcases toList_archiveName c name with ⟨before, after, heq, -, -, harch⟩ | ⟨-, harch⟩
  · rw [h, heq] at harch
    have := congrArg List.length harch
    simp only [List.length_append, List.length_cons] at this
    omega
  · rw [h] at harch
    have := congrArg List.length harch
    simp only [List.length_append, List.length_cons] at this
    omega

/-- Different names have different archive names. -/
theorem archiveName_injective (hc : c.PlainSuffix) {a b : String}
    (h : c.archiveName a = c.archiveName b) : a = b := by
  have crossed : ∀ {x y : String} {before after : List Char}, before ≠ [] → '.' ∉ after →
      (before ++ '.' :: c.archiveSuffix.toList) ++ '.' :: after =
        y.toList ++ '.' :: c.archiveSuffix.toList →
      (∀ before after, y.toList = before ++ '.' :: after → '.' ∉ after → before = []) → x = y := by
    intro x y before after hbefore hafter heq hdots
    obtain ⟨hy, -⟩ := Path.eq_of_append_dot heq hafter hc.no_dot
    exact absurd (hdots _ _ hy.symm hc.no_dot) hbefore
  rcases toList_archiveName c a with ⟨ba, aa, ha, hba, haa, harch⟩ | ⟨hdots, harch⟩
  · rcases toList_archiveName c b with ⟨bb, ab, hb, hbb, hab, harch'⟩ | ⟨hdots', harch'⟩
    · rw [h, harch'] at harch
      obtain ⟨hfirst, rfl⟩ := Path.eq_of_append_dot harch hab haa
      obtain ⟨rfl, -⟩ := Path.eq_of_append_dot hfirst hc.no_dot hc.no_dot
      exact String.ext (by rw [ha, hb])
    · rw [h, harch'] at harch
      exact crossed hba haa harch.symm hdots'
  · rcases toList_archiveName c b with ⟨bb, ab, hb, hbb, hab, harch'⟩ | ⟨hdots', harch'⟩
    · rw [h, harch'] at harch
      exact (crossed hbb hab harch hdots).symm
    · rw [h, harch'] at harch
      exact String.ext (Path.eq_of_append_dot harch hc.no_dot hc.no_dot).1.symm

/-- The archive of a file stands beside it. -/
theorem archivePath_path (hc : c.PlainSuffix)
    (h : Location.WellSpelled (init ++ [.name name])) :
    (c.archivePath (Location.path (init ++ [.name name]))).location =
      init ++ [.name (c.archiveName name)] := by
  obtain ⟨hinit, hname⟩ := h.init_and_name
  have harch := spelled_archiveName hc hname
  have hfile : Path.fileName? (Location.path (init ++ [.name name])) = some name := by
    simp [Path.fileName?, Location.steps_path h]
  have hwith : (Location.path (init ++ [.name name])).withFileName (c.archiveName name) =
      Location.path (init ++ [.name (c.archiveName name)]) := by
    simp only [Path.withFileName, hfile, Location.parent?_path h, Option.getD_some]
    exact Location.join_path hinit harch
  have hpath : c.archivePath (Location.path (init ++ [.name name])) =
      (Location.path (init ++ [.name name])).withFileName (c.archiveName name) := by
    unfold archivePath archiveName Path.fileStem? Path.extension?
    rw [hfile]
    rfl
  rw [hpath, hwith, Location.location_path (hinit.append_name harch)]

end PluginConfig

theorem Profile.flaw?_of_validate {p : Profile} (h : p.validate = .ok ()) : p.flaw? = none := by
  unfold validate at h
  split at h
  · cases h
  · split at h
    · cases h
    · assumption

/-- The suffix of a valid profile is a plain name. -/
theorem Profile.plainSuffix_of_validate {p : Profile} (h : p.validate = .ok ()) :
    p.config.PlainSuffix := by
  have hsuffix : isPlainSuffix p.archiveSuffix = true := by
    have hflaw := flaw?_of_validate h
    unfold flaw? at hflaw
    split at hflaw
    · cases hflaw
    · split at hflaw
      · cases hflaw
      · next hplain => simpa using hplain
  simp only [isPlainSuffix, Bool.and_eq_true, List.all_eq_true, decide_eq_true_eq] at hsuffix
  obtain ⟨hne, hall⟩ := hsuffix
  refine ⟨?_, ?_, ?_⟩
  · rintro hempty
    simp [config] at hempty
    simp [hempty] at hne
  · intro hdot
    simpa using hall '.' hdot
  · intro hslash
    simpa using hall '/' hslash

end Retarget
