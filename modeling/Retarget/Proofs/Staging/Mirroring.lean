import Retarget.Proofs.Staging.Advancing
import Retarget.Proofs.Staging.Alike

/-!
# A disk that mirrors a log

Operations that are carried out leave on the disk what the log shows, wherever a path is
*clear*: on the disk that they leave, it leads to no place that another path of an
operation leads to.  `Mirrors` says that a disk shows what a log shows on top of the disk
that it started from, and `mirrors_perform` that one more operation keeps it so.

A rename carries the text that its path showed when it was staged.  On the disk the file
is moved, whatever it holds; that the two are the same is what the mirror is needed for.
-/

namespace Retarget

namespace Disk

variable {d e f g : Disk} {S : Location → Prop} {l : Location} {n : List String}
  {log ops : List Staged} {op : Staged}

/-- Every folder of a disk is one of another disk. -/
def Below (d e : Disk) : Prop :=
  ∀ n, d.entry? n = some .folder → e.entry? n = some .folder

theorem Below.trans (h : d.Below e) (k : e.Below f) : d.Below f :=
  fun n hn => k n (h n hn)

/-- On the way from `d` to `e` a location leads to a place that no other one in `S` leads
to.  It leads there from the start, or it is spelled with names only. -/
def Clear (d e : Disk) (S : Location → Prop) (l : Location) : Prop :=
  ∀ n, e.find l = .ok n →
    (d.find l = .ok n ∨ l = n.map .name) ∧ ∀ k, S k → e.find k = .ok n → k = l

/-- What a log shows at a location on top of a disk. -/
def shown (d : Disk) (log : List Staged) (l : Location) : Option Content :=
  match OrderedMap.get? (Staged.replay log) l with
  | some state => state.map .text
  | none => d.file? l

theorem shown_nil (d : Disk) (l : Location) : d.shown [] l = d.file? l :=
  rfl

theorem shown_write (d : Disk) (log : List Staged) (p : Location) (s : String) (l : Location) :
    d.shown (log ++ [.write p s]) l = if l = p then some (.text s) else d.shown log l := by
  unfold shown
  rw [Staged.replay_append, List.foldl_cons, List.foldl_nil, Staged.apply, OrderedMap.get?_insert]
  by_cases hl : l = p
  · simp [hl]
  · simp [hl]

theorem shown_rename (d : Disk) (log : List Staged) (a b : Location) (s : String)
    (l : Location) : d.shown (log ++ [.rename a b s]) l =
      if l = b then some (.text s) else if l = a then none else d.shown log l := by
  unfold shown
  rw [Staged.replay_append, List.foldl_cons, List.foldl_nil, Staged.apply, OrderedMap.get?_insert,
    OrderedMap.get?_insert]
  by_cases hb : l = b
  · simp [hb]
  · by_cases ha : l = a
    · subst ha
      simp [hb]
    · simp [ha, hb]

/-- Every rename among operations carries the text that the log before it shows. -/
def Truthful (d : Disk) : List Staged → List Staged → Prop
  | _, [] => True
  | log, op :: ops =>
    (∀ a b s, op = .rename a b s → d.shown log a = some (.text s)) ∧ Truthful d (log ++ [op]) ops

theorem truthful_append {more : List Staged} (h : d.Truthful log ops)
    (k : d.Truthful (log ++ ops) more) : d.Truthful log (ops ++ more) := by
  induction ops generalizing log with
  | nil => simpa using k
  | cons op ops ih => exact ⟨h.1, ih h.2 (by simpa using k)⟩

/-- A disk `f` on the way from `d` to `e` that shows what a log shows. -/
structure Mirrors (d e : Disk) (S : Location → Prop) (log : List Staged) (f : Disk) : Prop where
  below : d.Below f
  rooted : f.Rooted
  files : ∀ l, Clear d e S l → f.file? l = d.shown log l

theorem mirrors_nil (hd : d.Rooted) (e : Disk) (S : Location → Prop) : Mirrors d e S [] d :=
  ⟨fun _ h => h, hd, fun l _ => (d.shown_nil l).symm⟩

/-- A clear location shows the same file if nothing has changed in its place. -/
theorem Clear.file? (hl : Clear d e S l) (hd : d.Below f) (hf : f.Rooted) (hfg : f.Below g)
    (hge : g.Below e) (hplace : ∀ n, e.find l = .ok n → g.fileAt? n = f.fileAt? n) :
    g.file? l = f.file? l := by
  refine Option.ext fun c => ?_
  rw [file?_eq_some, file?_eq_some]
  constructor
  · rintro ⟨n, hn, hc⟩
    have hlead := find_of_folders hge hn
    rw [hplace n hlead] at hc
    refine ⟨n, ?_, hc⟩
    rcases (hl n hlead).1 with hfind | hnames
    · exact find_of_folders hd hfind
    · -- the folders above a file are there
      rw [hnames]
      exact find_names hf (by simp [fileAt?_eq_some.mp hc])
  · rintro ⟨n, hn, hc⟩
    have hfind := find_of_folders hfg hn
    exact ⟨n, hfind, by rw [hplace n (find_of_folders hge hfind), hc]⟩

/-- Making folders changes no file. -/
theorem Mirrors.makeFolders (h : Mirrors d e S log f) (hmade : f.makeFolders l = .ok g)
    (hge : g.Below e) : Mirrors d e S log g := by
  have hframe := frame_makeFolders hmade
  refine ⟨h.below.trans hframe.folders, hframe.rooted h.rooted, fun k hk => ?_⟩
  rw [← h.files k hk]
  exact hk.file? h.below h.rooted hframe.folders hge fun n _ => hframe.files n (by simp)

/-- A write that is carried out. -/
theorem Mirrors.write {p : Location} {s : String} (h : Mirrors d e S log f)
    (hp : S p) (hop : (Staged.write p s).perform f = .ok g) (hge : g.Below e) :
    Mirrors d e S (log ++ [.write p s]) g := by
  obtain ⟨made, hmade, hwrite⟩ := ok_of_bind hop
  obtain ⟨above, name, hfind, hfolder, hfree, hput⟩ := writeContent_ok hwrite
  have hframe := frame_writeText hwrite
  have hmirrors := h.makeFolders hmade (Below.trans hframe.folders hge)
  have hlead : g.find p = .ok (above ++ [name]) := find_of_folders hframe.folders hfind
  have hfile (n : List String) : g.fileAt? n =
      if n = above ++ [name] then some (.text s) else made.fileAt? n := by
    rw [hput, fileAt?_put (by simp)]
  refine ⟨hmirrors.below.trans hframe.folders, hframe.rooted hmirrors.rooted, fun l hl => ?_⟩
  rw [shown_write]
  by_cases hlp : l = p
  · rw [if_pos hlp, hlp]
    exact file?_eq_some.mpr ⟨_, hlead, by rw [hfile, if_pos rfl]⟩
  · rw [if_neg hlp, ← hmirrors.files l hl]
    refine hl.file? hmirrors.below hmirrors.rooted hframe.folders hge fun n hn => ?_
    rw [hfile, if_neg]
    rintro rfl
    exact hlp ((hl _ hn).2 p hp (find_of_folders hge hlead)).symm

/-- A rename that is carried out and that carries the text which the log shows. -/
theorem Mirrors.rename {a b : Location} {s : String} (h : Mirrors d e S log f)
    (ha : S a) (hb : S b) (hclear : Clear d e S a) (hshown : d.shown log a = some (.text s))
    (hop : (Staged.rename a b s).perform f = .ok g) (hge : g.Below e) :
    Mirrors d e S (log ++ [.rename a b s]) g := by
  obtain ⟨made, hmade, hmove⟩ := ok_of_bind hop
  have hfolders : made.Below g := by
    split at hmove
    · exact (frame_move hmove).folders
    · exact (frame_writeText hmove).folders
  have hmirrors := h.makeFolders hmade (hfolders.trans hge)
  have hfileA : made.file? a = some (.text s) := (hmirrors.files a hclear).trans hshown
  obtain ⟨n, hn, hc⟩ := file?_eq_some.mp hfileA
  rw [if_pos (isFile_iff.mpr ⟨n, _, hn, hc⟩)] at hmove
  obtain ⟨source, above, name, c, hsource, hfileS, htarget, -, -, hput⟩ := move_ok hmove
  obtain rfl : n = source := Except.ok.inj (hn.symm.trans hsource)
  obtain rfl : Content.text s = c := Option.some.inj (hc.symm.trans hfileS)
  have hframe := frame_move hmove
  have hleadA : g.find a = .ok n := find_of_folders hfolders hsource
  have hleadB : g.find b = .ok (above ++ [name]) := find_of_folders hfolders htarget
  have hfile (k : List String) : g.fileAt? k =
      if k = above ++ [name] then some (.text s) else if k = n then none else made.fileAt? k := by
    rw [hput]
    split
    · next heq => rw [fileAt?_put (by simp), ← heq]; split <;> rfl
    · next hne =>
      rw [fileAt?_remove (ne_nil_of_fileAt? hfileS), fileAt?_put (by simp)]
      by_cases hk : k = n
      · simp [hk, Ne.symm hne]
      · simp [hk]
  refine ⟨hmirrors.below.trans hfolders, hframe.rooted hmirrors.rooted, fun l hl => ?_⟩
  rw [shown_rename]
  by_cases hlb : l = b
  · rw [if_pos hlb, hlb]
    exact file?_eq_some.mpr ⟨_, hleadB, by rw [hfile, if_pos rfl]⟩
  · rw [if_neg hlb]
    have hapart (k : List String) (hk : e.find l = .ok k) : k ≠ above ++ [name] := by
      rintro rfl
      exact hlb ((hl _ hk).2 b hb (find_of_folders hge hleadB)).symm
    by_cases hla : l = a
    · rw [if_pos hla, hla, file?, hleadA]
      dsimp only
      rw [hfile, if_neg (hapart n (hla ▸ find_of_folders hge hleadA)), if_pos rfl]
    · rw [if_neg hla, ← hmirrors.files l hl]
      refine hl.file? hmirrors.below hmirrors.rooted hfolders hge fun k hk => ?_
      rw [hfile, if_neg (hapart k hk), if_neg]
      rintro rfl
      exact hla ((hl _ hk).2 a ha (find_of_folders hge hleadA)).symm

/-- An operation that is carried out keeps the mirror. -/
theorem mirrors_perform (h : Mirrors d e S log f) (hpaths : ∀ x ∈ op.paths, S x ∧ Clear d e S x)
    (htrue : ∀ a b s, op = .rename a b s → d.shown log a = some (.text s))
    (hop : op.perform f = .ok g) (hge : g.Below e) : Mirrors d e S (log ++ [op]) g := by
  cases op with
  | write p s => exact h.write (hpaths p (by simp [Staged.paths])).1 hop hge
  | rename a b s =>
    obtain ⟨ha, hclear⟩ := hpaths a (by simp [Staged.paths])
    exact h.rename ha (hpaths b (by simp [Staged.paths])).1 hclear (htrue a b s rfl) hop hge

/-- Operations that are carried out keep the mirror. -/
theorem mirrors_performAll (h : Mirrors d e S log f)
    (hpaths : ∀ op ∈ ops, ∀ x ∈ op.paths, S x ∧ Clear d e S x) (htrue : d.Truthful log ops)
    (hops : Staged.performAll f ops = .ok g) (hge : g.Below e) : Mirrors d e S (log ++ ops) g := by
  induction ops generalizing log f with
  | nil =>
    obtain rfl : f = g := by simpa [Staged.performAll, pure, Except.pure] using hops
    simpa using h
  | cons op ops ih =>
    obtain ⟨f', hop, hrest⟩ := Staged.performAll_cons_inv hops
    have hbelow : f'.Below e := Below.trans (Staged.frame_performAll hrest).folders hge
    have hone := mirrors_perform h (hpaths op List.mem_cons_self) htrue.1 hop hbelow
    simpa using ih hone (fun op' hop' => hpaths op' (List.mem_cons_of_mem _ hop')) htrue.2 hrest

/-- Among locations that are spelled with names only every one is clear. -/
theorem clear_of_names (d e : Disk) (hS : ∀ k, S k → ∃ names : List String, k = names.map .name)
    (names : List String) : Clear d e S (names.map .name) := by
  have hplace {k n : List String} (hn : e.find (k.map .name) = .ok n) : n = k := by
    simpa using follow_map_name hn
  intro n hn
  obtain rfl := hplace hn
  refine ⟨.inr rfl, fun k hk hfind => ?_⟩
  obtain ⟨names', rfl⟩ := hS k hk
  rw [hplace hfind]

/-- Wherever it is clear a mirror shows what the disk that it started from shows. -/
theorem Mirrors.shown (h : Mirrors d e S log f) (hl : Clear d e S l) :
    f.shown log l = d.shown log l := by
  have hfile := h.files l hl
  unfold Disk.shown at hfile ⊢
  cases hget : OrderedMap.get? (Staged.replay log) l with
  | some state => rfl
  | none => simpa [hget] using hfile

end Disk

namespace Staging

variable {d e f : Disk} {S : Location → Prop} {t u : Staging} {log : List Staged} {x : Location}

/-- What a path reads as, given the file that it shows. -/
def reading (x : Location) : Option Content → Except Failure String
  | some (.text s) => .ok s
  | some (.raw _) => .error Disk.Fault.notText.failure
  | none => .error (.fileNotFound x.path)

/-- A path reads as the log shows it on top of the disk. -/
theorem read_eq_reading (ho : t.overlay = Staged.replay log) (hd : t.disk = some d)
    (x : Location) : t.read x = reading x (d.shown log x) := by
  unfold read Disk.shown
  rw [ho, readDisk_eq hd]
  cases OrderedMap.get? (Staged.replay log) x with
  | some state =>
    cases state with
    | none => rfl
    | some s => rfl
  | none =>
    dsimp only
    cases d.file? x with
    | none => rfl
    | some c =>
      cases c with
      | text s => rfl
      | raw b => rfl

theorem read_open (d : Disk) (x : Location) : (Staging.open d).read x = reading x (d.file? x) :=
  read_eq_reading (show (Staging.open d).overlay = Staged.replay [] from rfl) rfl x

/-- A file is where the log shows one on top of the disk. -/
theorem exists_eq_isSome (ho : t.overlay = Staged.replay log) (hd : t.disk = some d)
    (x : Location) : t.exists_ x = (d.shown log x).isSome := by
  unfold exists_ Disk.shown
  rw [ho]
  cases OrderedMap.get? (Staged.replay log) x with
  | some state => simp
  | none =>
    rw [hd]
    dsimp only [Option.map_some, Option.getD_some]
    rw [Bool.eq_iff_iff, Disk.isFile_iff, Option.isSome_iff_exists]
    simp only [Disk.file?_eq_some]
    exact ⟨fun ⟨n, c, hn, hc⟩ => ⟨c, n, hn, hc⟩, fun ⟨c, n, hn, hc⟩ => ⟨n, c, hn, hc⟩⟩

/-- What a path reads as tells its text. -/
theorem shown_of_read {s : String} (ho : t.overlay = Staged.replay log) (hd : t.disk = some d)
    (h : t.read x = .ok s) : d.shown log x = some (.text s) := by
  rw [read_eq_reading ho hd] at h
  unfold reading at h
  split at h
  · next hshown => rw [hshown, Except.ok.inj h]
  · cases h
  · cases h

end Staging

end Retarget
