import Retarget.Language
import Retarget.Plugin
import Retarget.Proofs.Path.Rebasing

/-!
# Files in a known language

A config is read in the language that the extension of its name gives, and its archive has
the same extension, whatever the suffix is.  Both lead to places whose names end with that
extension.
-/

namespace Retarget

open Syntax

variable {l : Location} {e : List Char} {n : List String} {p : Path} {s ext : String}
  {d : Dialect}

namespace Location

/-- A location ends with a name that has an extension. -/
def EndsIn (l : Location) (e : List Char) : Prop :=
  ∃ b, l.getLast? = some (.name (String.ofList (b ++ '.' :: e)))

/-- The location of a file whose extension belongs to a language. -/
def InLanguage (l : Location) : Prop :=
  ∃ e d, Dialect.ofExtension? (String.ofList e) = some d ∧ '.' ∉ e ∧ l.EndsIn e

theorem getLast?_of_resolve (hl : l.getLast? = some (.name s)) (h : resolve l = some n) :
    n.getLast? = some s := by
  obtain ⟨init, rfl⟩ := List.getLast?_eq_some_iff.mp hl
  obtain ⟨at_, hat, rfl⟩ := Option.map_eq_some_iff.mp h
  rw [follow_append] at hat
  obtain ⟨above, -, hlast⟩ := Option.bind_eq_some_iff.mp hat
  obtain rfl := Option.some.inj hlast
  rw [List.reverse_cons, List.getLast?_concat]

/-- A file in a language has no name with another extension. -/
theorem InLanguage.not_named (h : l.InLanguage) (hn : resolve l = some n) {b f : List Char}
    (hf : '.' ∉ f) (hnone : Dialect.ofExtension? (String.ofList f) = none) :
    n.getLast? ≠ some (String.ofList (b ++ '.' :: f)) := by
  obtain ⟨e, d, hd, he, b', hl⟩ := h
  rw [getLast?_of_resolve hl hn]
  intro heq
  have hchars := congrArg String.toList (Option.some.inj heq)
  rw [String.toList_ofList, String.toList_ofList] at hchars
  obtain ⟨-, rfl⟩ := Path.eq_of_append_dot hchars he hf
  rw [hnone] at hd
  cases hd

end Location

namespace Path

/-- A path with an extension ends with a name that has it. -/
theorem endsIn_of_extension? (h : p.extension? = some ext) :
    p.location.EndsIn ext.toList ∧ '.' ∉ ext.toList ∧ '/' ∉ ext.toList := by
  obtain ⟨name, hname, hext⟩ := Option.bind_eq_some_iff.mp h
  have hlast : p.location.getLast? = some (.name name) := by
    unfold fileName? at hname
    split at hname
    · next hsteps =>
      obtain rfl := Option.some.inj hname
      obtain ⟨init, hinit⟩ := List.getLast?_eq_some_iff.mp hsteps
      rw [location, hinit, List.filter_append]
      simp
    · cases hname
  have hslash : '/' ∉ name.toList :=
    (spelled_of_mem_location (List.mem_of_getLast? hlast)).no_slash
  rcases splitExtension_cases name.toList with ⟨before, after, hsplit, hchars, -, hdot⟩ | ⟨hsplit, -⟩
  · rw [hsplit] at hext
    obtain rfl := Option.some.inj hext
    rw [String.toList_ofList]
    refine ⟨⟨before, ?_⟩, hdot, ?_⟩
    · rw [← hchars, String.ofList_toList]
      exact hlast
    · intro hmem
      apply hslash
      rw [hchars]
      simp [hmem]
  · rw [hsplit] at hext
    cases hext

/-- A text that ends with a dot and an extension spells a name that does. -/
theorem endsIn_of_text {z : List Char} (h : p.text.toList = z ++ '.' :: e) (hne : e ≠ [])
    (hdot : '.' ∉ e) (hslash : '/' ∉ e) : p.location.EndsIn e := by
  have hpiece (b : List Char) (hb : '/' ∉ b) :
      moves (Text.splitAtAll (· == '/') (b ++ '.' :: e)) =
        [.name (String.ofList (b ++ '.' :: e))] := by
    obtain ⟨c, e', rfl⟩ := List.exists_cons_of_ne_nil hne
    have hc : c ≠ '.' := by
      rintro rfl
      exact hdot List.mem_cons_self
    have hstep : Step.ofPiece? (b ++ '.' :: c :: e') =
        some (.name (String.ofList (b ++ '.' :: c :: e'))) := by
      unfold Step.ofPiece?
      rw [if_neg (by simp), if_neg, if_neg]
      · rcases b with _ | ⟨x, b⟩
        · simp [hc]
        · cases b with
          | nil => simp
          | cons y b => simp
      · cases b with
        | nil => simp
        | cons x b => simp
    rw [Text.splitAtAll_of_none]
    · simp [moves, hstep]
    · intro x hx
      rw [beq_eq_false_iff_ne]
      rintro rfl
      rcases List.mem_append.mp hx with hx | hx
      · exact hb hx
      · exact hslash (List.mem_of_ne_of_mem (by decide) hx)
  rw [location_eq, h]
  by_cases hz : '/' ∈ z
  · -- the last piece stands behind the last slash
    obtain ⟨as, bs, hrev, has⟩ := List.eq_append_cons_of_mem (List.mem_reverse.mpr hz)
    obtain rfl : z = bs.reverse ++ '/' :: as.reverse := by
      rw [← List.reverse_reverse z, hrev]
      simp
    rw [List.append_assoc, List.cons_append, Text.splitAtAll_append (by rfl), moves_append,
      hpiece _ (by simpa using has)]
    exact ⟨as.reverse, by rw [← List.append_assoc, List.getLast?_concat]⟩
  · rw [hpiece z hz]
    exact ⟨z, List.getLast?_concat⟩

theorem exists_text_join (a b : Path) : ∃ x, (a.join b).text = x ++ b.text := by
  unfold join
  split
  · exact ⟨"", by simp⟩
  · split
    · exact ⟨a.text, rfl⟩
    · exact ⟨a.text ++ "/", rfl⟩

end Path

/-- An archive has the extension of its file. -/
theorem PluginConfig.endsIn_archivePath (c : PluginConfig) (h : p.extension? = some ext)
    (hne : ext ≠ "") : (c.archivePath p).location.EndsIn ext.toList := by
  obtain ⟨-, hdot, hslash⟩ := Path.endsIn_of_extension? h
  obtain ⟨name, hname, -⟩ := Option.bind_eq_some_iff.mp h
  obtain ⟨x, hx⟩ := Path.exists_text_join (p.parent?.getD ⟨""⟩)
    ⟨p.fileStem?.getD "" ++ "." ++ c.archiveSuffix ++ "." ++ ext⟩
  refine Path.endsIn_of_text
    (z := (x ++ (p.fileStem?.getD "" ++ "." ++ c.archiveSuffix)).toList) ?_ (by simpa using hne)
    hdot hslash
  unfold archivePath Path.withFileName
  rw [h, hname]
  dsimp only
  rw [hx]
  simp

theorem exists_extension? (h : Dialect.ofPath p = .ok d) :
    ∃ ext, p.extension? = some ext ∧ Dialect.ofExtension? ext = some d := by
  unfold Dialect.ofPath at h
  split at h
  · next hd =>
    obtain rfl := Except.ok.inj h
    exact Option.bind_eq_some_iff.mp hd
  · cases h

theorem inLanguage_of_ofPath (h : Dialect.ofPath p = .ok d) : p.location.InLanguage := by
  obtain ⟨ext, hext, hd⟩ := exists_extension? h
  obtain ⟨hends, hdot, -⟩ := Path.endsIn_of_extension? hext
  exact ⟨ext.toList, d, by rwa [String.ofList_toList], hdot, hends⟩

theorem inLanguage_archivePath (c : PluginConfig) (h : Dialect.ofPath p = .ok d) :
    (c.archivePath p).location.InLanguage := by
  obtain ⟨ext, hext, hd⟩ := exists_extension? h
  have hne : ext ≠ "" := by
    rintro rfl
    cases (show Dialect.ofExtension? "" = none by decide).symm.trans hd
  exact ⟨ext.toList, d, by rwa [String.ofList_toList], (Path.endsIn_of_extension? hext).2.1,
    c.endsIn_archivePath hext hne⟩

end Retarget
