import Retarget.Proofs.Disk.Listing
import Retarget.Proofs.Path.Archive
import Retarget.Proofs.Text.ByteOrder
import Retarget.Proofs.Workspace.Discovery

/-!
# What a query selects

A walk decides once for every folder whether it is excluded.  `Accepts` says instead of every
single file what a query asks of its path, and a walk finds exactly the files it accepts, in the
order of the bytes of their names (`selects_accepted`).
-/

namespace Retarget

namespace FileQuery

variable {q : FileQuery} {includes excludes : List String → Bool} {d : Disk}
  {start n rel : List String} {name ext : String}

/-! ## Extensions -/

/-- The extension of a name stands behind its last dot.  It is empty if there is no dot, or none but
one that opens the name. -/
def IsExtension (name ext : String) : Prop :=
  (∃ stem, stem ≠ [] ∧ name.toList = stem ++ '.' :: ext.toList ∧ '.' ∉ ext.toList) ∨
    (ext = "" ∧ ∀ stem rest, name.toList = stem ++ '.' :: rest → '.' ∉ rest → stem = [])

theorem isExtension_iff (h : (Step.name name).Spelled) :
    IsExtension name ext ↔ (Path.mk name).extension?.getD "" = ext := by
  have hname : (Path.mk name).fileName? = some name := by
    have hsteps : (Path.mk name).steps = [.name name] := by
      have hpath : Location.path [.name name] = Path.mk name :=
        congrArg Path.mk (String.ofList_toList (s := name))
      rw [← hpath]
      refine Location.steps_path (Location.wellSpelled_of_all ?_)
      simpa using h
    rw [Path.fileName?, hsteps]
    rfl
  rw [Path.extension?, hname, Option.bind_some]
  rcases Path.splitExtension_cases name.toList with
    ⟨stem, after, hsplit, hchars, hstem, hafter⟩ | ⟨hsplit, hdots⟩
  · rw [hsplit]
    constructor
    · rintro (⟨stem', -, hchars', hext⟩ | ⟨-, hdots⟩)
      · obtain ⟨-, hsame⟩ := Path.eq_of_append_dot (hchars.symm.trans hchars') hafter hext
        simp [hsame]
      · exact absurd (hdots stem after hchars hafter) hstem
    · rintro rfl
      refine .inl ⟨stem, hstem, ?_, ?_⟩
      · simpa using hchars
      · simpa using hafter
  · rw [hsplit]
    constructor
    · rintro (⟨stem, hstem, hchars, hext⟩ | ⟨rfl, -⟩)
      · exact absurd (hdots stem ext.toList hchars hext) hstem
      · rfl
    · rintro rfl
      exact .inr ⟨rfl, hdots⟩

/-! ## Accepted paths -/

/-- What a query asks of the path of a file, relative to where it starts.  Neither the path nor a
folder on it is excluded, and every list that is not empty has something for it; extensions are
compared without regard to the case of ASCII letters. -/
structure Accepts (q : FileQuery) (includes excludes : List String → Bool)
    (rel : List String) : Prop where
  not_excluded : ∀ top, top <+: rel → top ≠ [] → excludes top = false
  named : q.names ≠ [] → ∃ name ∈ q.names, rel.getLast? = some name
  extended : q.extensions ≠ [] → ∃ x ∈ q.extensions, ∃ name ext, rel.getLast? = some name ∧
    IsExtension name ext ∧ x.toLower = ext.toLower
  included : q.included ≠ [] → includes rel = true

theorem entered_iff : Entered (fun rel => !excludes rel) [] rel ↔
    ∀ top, top <+: rel → top ≠ [] → excludes top = false := by
  simp [Entered]

theorem hasName_iff : q.hasName name = true ↔ q.names ≠ [] → name ∈ q.names := by
  rw [hasName, Bool.or_eq_true, List.isEmpty_iff, List.contains_iff_mem]
  exact or_iff_not_imp_left

theorem hasExtension_iff (h : (Step.name name).Spelled) :
    q.hasExtension name = true ↔ (q.extensions ≠ [] →
      ∃ x ∈ q.extensions, ∃ ext, IsExtension name ext ∧ x.toLower = ext.toLower) := by
  simp only [hasExtension, Bool.or_eq_true, List.isEmpty_iff, List.any_eq_true, decide_eq_true_eq,
    isExtension_iff h, exists_eq_left']
  exact or_iff_not_imp_left

/-- What a walk asks of a file below its start is what the query asks of its path. -/
theorem accepts_iff (hrel : rel.getLast? = some name) (hname : (Step.name name).Spelled) :
    q.Accepts includes excludes rel ↔ Entered (fun rel => !excludes rel) [] rel ∧
      q.Wants rel ∧ (q.included.isEmpty || includes rel) = true := by
  have hwants : q.Wants rel ↔ q.hasName name = true ∧ q.hasExtension name = true := by
    rw [Wants, hrel]
    rfl
  rw [hwants, hasName_iff, hasExtension_iff hname, entered_iff, Bool.or_eq_true, List.isEmpty_iff,
    or_iff_not_imp_left]
  constructor
  · intro h
    refine ⟨h.not_excluded, ⟨?_, ?_⟩, h.included⟩
    · intro hne
      obtain ⟨name', hmem, hlast⟩ := h.named hne
      rwa [Option.some.inj (hrel.symm.trans hlast)]
    · intro hne
      obtain ⟨x, hx, name', ext, hlast, hext, hcase⟩ := h.extended hne
      rw [Option.some.inj (hrel.symm.trans hlast)]
      exact ⟨x, hx, ext, hext, hcase⟩
  · rintro ⟨hentered, ⟨hnamed, hextended⟩, hincluded⟩
    refine ⟨hentered, ?_, ?_, hincluded⟩
    · intro hne
      exact ⟨name, hnamed hne, hrel⟩
    · intro hne
      obtain ⟨x, hx, ext, hext, hcase⟩ := hextended hne
      exact ⟨x, hx, name, ext, hrel, hext, hcase⟩

/-- A query selects the files below a folder whose paths it accepts. -/
theorem mem_select_iff_accepts (hd : d.WellFormed) (hstart : d.entry? start = some .folder) :
    n ∈ q.select includes excludes d start ↔
      ∃ rel, n = start ++ rel ∧ (d.fileAt? n).isSome ∧ q.Accepts includes excludes rel := by
  rw [mem_select_iff hd.rooted]
  refine exists_congr fun rel => and_congr_right ?_
  rintro rfl
  refine and_congr_right fun hfile => ?_
  -- the start is a folder, so a file below it has a name of its own
  have hne : rel ≠ [] := by
    rintro rfl
    rw [List.append_nil, Disk.fileAt?_eq_none_of_folder hstart] at hfile
    cases hfile
  obtain ⟨init, name, rfl⟩ := (List.eq_nil_or_concat' rel).resolve_left hne
  have hspelled : (Step.name name).Spelled := by
    refine hd.spelled _ (Disk.isSome_entry?_of_fileAt? hfile) name ?_
    simp
  rw [accepts_iff List.getLast?_concat hspelled]
  have hlast : q.Wants (start ++ (init ++ [name])) ↔ q.Wants (init ++ [name]) := by
    rw [Wants, Wants, ← List.append_assoc, List.getLast?_concat, List.getLast?_concat]
  rw [hlast]

/-- A walk that leaves excluded folders out finds exactly the files whose paths a query accepts,
each of them once, in the order of the bytes of their names, whatever the globs match.  That is what
is collected if the globs can be read. -/
theorem selects_accepted (hd : d.WellFormed) (hdistinct : d.Distinct)
    (hstart : d.entry? start = some .folder) (q : FileQuery) :
    (∀ includes excludes : List String → Bool,
      (∀ n, n ∈ q.select includes excludes d start ↔
        ∃ rel, n = start ++ rel ∧ (d.fileAt? n).isSome ∧ q.Accepts includes excludes rel) ∧
      (q.select includes excludes d start).Pairwise
        (fun m n => m.map Text.encode < n.map Text.encode) ∧
      (q.select includes excludes d start).Nodup) ∧
    ∀ included excluded, q.included.mapM Glob.ofText = .ok included →
      q.excluded.mapM Glob.ofText = .ok excluded →
      q.collect d start =
        .ok (q.select (anyMatches included) (anyMatches excluded) d start) := by
  constructor
  · intro includes excludes
    have hsorted := pairwise_select hdistinct q includes excludes start
    refine ⟨fun n => mem_select_iff_accepts hd hstart, ?_, ?_⟩
    · exact hsorted.imp fun h => List.map_lt (fun _ _ => Text.encode_lt_encode) h
    · exact hsorted.imp fun h => ne_of_lt h
  · intro included excluded hincluded hexcluded
    rw [collect, hincluded, hexcluded]
    rfl

/-- A directory with a folder that is excluded and two folders whose order is not that of the paths
below them. -/
def scripts : Disk :=
  ⟨[(["apps"], .folder), (["apps", "dist"], .folder), (["apps", "dist", "x.js"], .file (.text "")),
    (["apps", "b-c"], .folder), (["apps", "b-c", "x.js"], .file (.text "")),
    (["apps", "b"], .folder), (["apps", "b", "x.js"], .file (.text "")),
    (["apps", "b", "y.js"], .file (.text ""))]⟩

/-- Files of one name outside of the folders for output. -/
def outsideDist : FileQuery :=
  ⟨["x.js"], [], [], ["**/dist"]⟩

theorem selects_accepted_scripts :
    scripts.WellFormed ∧ scripts.Distinct ∧ scripts.entry? ["apps"] = some .folder ∧
      ([["apps", "b", "x.js"], ["apps", "b-c", "x.js"]].Pairwise fun m n : List String =>
        m.map Text.encode < n.map Text.encode) ∧
      outsideDist.collect scripts ["apps"] =
        .ok [["apps", "b", "x.js"], ["apps", "b-c", "x.js"]] := by
  have hwell : scripts.WellFormed := Disk.wellFormed_of_entries (by decide +kernel)
  have hdistinct : scripts.Distinct := by decide
  have hstart : scripts.entry? ["apps"] = some .folder := by decide
  obtain ⟨hselects, hcollects⟩ := selects_accepted hwell hdistinct hstart outsideDist
  have hfound : outsideDist.collect scripts ["apps"] =
      .ok [["apps", "b", "x.js"], ["apps", "b-c", "x.js"]] := by
    decide +kernel
  refine ⟨hwell, hdistinct, hstart, ?_, hfound⟩
  obtain ⟨included, hincluded, hrest⟩ := ok_of_bind hfound
  obtain ⟨excluded, hexcluded, -⟩ := ok_of_bind hrest
  obtain ⟨-, hsorted, -⟩ := hselects (anyMatches included) (anyMatches excluded)
  have hcollected := hcollects included excluded hincluded hexcluded
  rwa [Except.ok.inj (hcollected.symm.trans hfound)] at hsorted

end FileQuery

end Retarget
