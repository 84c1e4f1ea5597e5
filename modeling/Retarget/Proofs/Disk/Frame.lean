import Retarget.Proofs.Disk.Places
import Retarget.Proofs.Staging.Flushing

/-!
# What an operation leaves alone on a disk

`Disk.Frame S d e` says that `e` comes from `d` by changing files at places in `S`
only and by making folders.  Making folders changes no file, writing changes the
file at one place, and moving those at two.  A staged operation that is carried out
changes files at its own places, and one that fails changes no file at all.
-/

namespace Retarget.Disk

variable {d e f : Disk} {l : Location} {n k : List String} {S T : List String → Prop}

/-- `e` comes from `d` by changing files at places in `S` and making folders. -/
structure Frame (S : List String → Prop) (d e : Disk) : Prop where
  folders : ∀ n, d.entry? n = some .folder → e.entry? n = some .folder
  files : ∀ n, ¬S n → e.fileAt? n = d.fileAt? n
  rooted : d.Rooted → e.Rooted

theorem Frame.refl (S : List String → Prop) (d : Disk) : Frame S d d :=
  ⟨fun _ h => h, fun _ _ => rfl, id⟩

theorem Frame.trans (h : Frame S d e) (h' : Frame S e f) : Frame S d f :=
  ⟨fun n hn => h'.folders n (h.folders n hn), fun n hn => (h'.files n hn).trans (h.files n hn),
    fun hd => h'.rooted (h.rooted hd)⟩

theorem Frame.mono (h : Frame S d e) (sub : ∀ n, S n → T n) : Frame T d e :=
  ⟨h.folders, fun n hn => h.files n fun hS => hn (sub n hS), h.rooted⟩

/-- A location leads to none of the places, and changing files there does not lead it
anywhere else. -/
def Avoids (S : List String → Prop) (d : Disk) (l : Location) : Prop :=
  ∀ n, Location.resolve l = some n → ¬S n ∧ (d.find l = .ok n ∨ l = n.map .name)

theorem Avoids.mono (h : d.Avoids T l) (sub : ∀ n, S n → T n) : d.Avoids S l :=
  fun n hn => ⟨fun hS => (h n hn).1 (sub n hS), (h n hn).2⟩

/-- What avoids the places keeps its file. -/
theorem Frame.file? (h : Frame S d e) (hd : d.Rooted) (hl : d.Avoids S l) :
    e.file? l = d.file? l := by
  refine Option.ext fun c => ?_
  rw [file?_eq_some, file?_eq_some]
  constructor
  · rintro ⟨n, hn, hc⟩
    obtain ⟨hS, hlead⟩ := hl n (resolve_of_find hn)
    rw [h.files n hS] at hc
    refine ⟨n, ?_, hc⟩
    rcases hlead with hfind | hnames
    · exact hfind
    · -- the folders above a file are there
      rw [hnames]
      exact find_names hd (by simp [fileAt?_eq_some.mp hc])
  · rintro ⟨n, hn, hc⟩
    have hS := (hl n (resolve_of_find hn)).1
    exact ⟨n, find_of_folders h.folders hn, by rw [h.files n hS, hc]⟩

/-- Putting a file into a folder, unless a folder is in its way. -/
theorem frame_put {name : String} (hn : d.entry? n = some .folder)
    (hfree : d.entry? (n ++ [name]) ≠ some .folder) (c : Content) :
    Frame (· = n ++ [name]) d (d.put (n ++ [name]) (.file c)) := by
  have hne : n ++ [name] ≠ [] := by simp
  refine ⟨?_, ?_, ?_⟩
  · intro k hk
    rw [entry_put hne, if_neg]
    · exact hk
    · rintro rfl
      exact hfree hk
  · intro k hk
    rw [fileAt?_put hne, if_neg hk]
  · intro hd above x hx
    rw [entry_put hne] at hx ⊢
    by_cases heq : above ++ [x] = n ++ [name]
    · obtain ⟨rfl, -⟩ := List.append_inj' heq rfl
      rw [if_neg (by simp)]
      exact hn
    · rw [if_neg heq] at hx
      have hfolder := hd above x hx
      rw [if_neg]
      · exact hfolder
      · rintro rfl
        exact hfree hfolder

/-- Putting a folder where nothing was. -/
theorem frame_putFolder {name : String} (hn : d.entry? n = some .folder)
    (hfree : d.entry? (n ++ [name]) = none) :
    Frame (fun _ => False) d (d.put (n ++ [name]) .folder) := by
  have hne : n ++ [name] ≠ [] := by simp
  refine ⟨?_, ?_, ?_⟩
  · intro k hk
    rw [entry_put hne]
    split
    · rfl
    · exact hk
  · intro k _
    unfold fileAt?
    rw [entry_put hne]
    by_cases hk : k = n ++ [name]
    · simp [hk, hfree]
    · simp [hk]
  · intro hd above x hx
    rw [entry_put hne] at hx ⊢
    split
    · rfl
    · by_cases heq : above ++ [x] = n ++ [name]
      · obtain ⟨rfl, -⟩ := List.append_inj' heq rfl
        exact hn
      · rw [if_neg heq] at hx
        exact hd above x hx

/-- Removing a file. -/
theorem frame_remove {c : Content} (hn : d.fileAt? n = some c) :
    Frame (· = n) d ⟨d.entries.remove n⟩ := by
  have hne := ne_nil_of_fileAt? hn
  rw [fileAt?_eq_some] at hn
  refine ⟨?_, ?_, ?_⟩
  · intro k hk
    rw [entry_remove hne, if_neg]
    · exact hk
    · rintro rfl
      simp [hn] at hk
  · intro k hk
    rw [fileAt?_remove hne, if_neg hk]
  · intro hd above x hx
    rw [entry_remove hne] at hx ⊢
    split at hx
    · simp at hx
    · have hfolder := hd above x hx
      rw [if_neg]
      · exact hfolder
      · rintro rfl
        simp [hn] at hfolder

/-! ## Making folders -/

theorem frame_makeFolder (h : d.makeFolder l = .ok e) : Frame (fun _ => False) d e := by
  unfold makeFolder at h
  split at h
  · obtain ⟨above, -, h⟩ := ok_of_bind h
    split at h
    · cases h
    · cases h
    · next hfolder =>
      split at h
      · cases h
      · next hfree =>
        obtain rfl : d.put (above ++ [_]) .folder = e := by simpa using h
        exact frame_putFolder hfolder hfree
  · obtain ⟨_, -, h⟩ := ok_of_bind h
    cases h

theorem frame_makeFoldersAt {steps : List Step} (h : d.makeFoldersAt steps = .ok e) :
    Frame (fun _ => False) d e := by
  induction steps generalizing e with
  | nil =>
    obtain rfl : d = e := by simpa [makeFoldersAt] using h
    exact .refl _ d
  | cons s above ih =>
    unfold makeFoldersAt at h
    dsimp only at h
    split at h
    · next hmade =>
      obtain rfl := by simpa using h
      exact frame_makeFolder hmade
    · split at h
      · simp at h
      · next habove =>
        have hframe := ih habove
        split at h
        · next hmade =>
          obtain rfl := by simpa using h
          exact hframe.trans (frame_makeFolder hmade)
        · split at h
          · obtain rfl := by simpa using h
            exact hframe
          · simp at h
    · split at h
      · obtain rfl : d = e := by simpa using h
        exact .refl _ d
      · simp at h

/-- Making folders changes no file. -/
theorem frame_makeFolders (h : d.makeFolders l = .ok e) : Frame (fun _ => False) d e :=
  frame_makeFoldersAt h

/-! ## Writing and moving -/

/-- What is known after a file was written. -/
theorem writeContent_ok {c : Content} (h : d.writeContent l c = .ok e) :
    ∃ above name, d.find l = .ok (above ++ [name]) ∧ d.entry? above = some .folder ∧
      d.entry? (above ++ [name]) ≠ some .folder ∧ e = d.put (above ++ [name]) (.file c) := by
  unfold writeContent at h
  split at h
  · next name hlast =>
    obtain ⟨above, habove, hput⟩ := ok_of_bind h
    split at hput
    · cases hput
    · cases hput
    · next hfolder =>
      split at hput
      · cases hput
      · next hfree =>
        obtain ⟨init, rfl⟩ := List.getLast?_eq_some_iff.mp hlast
        rw [List.dropLast_concat] at habove
        refine ⟨above, name, find_append_name.mpr ⟨above, habove, hfolder, rfl⟩, hfolder, ?_, ?_⟩
        · exact fun hfile => hfree hfile
        · simpa using hput.symm
  · obtain ⟨_, -, h⟩ := ok_of_bind h
    cases h

theorem content_ok {c : Content} (h : d.content l = .ok c) :
    ∃ n, d.find l = .ok n ∧ d.fileAt? n = some c := by
  unfold content at h
  obtain ⟨n, hn, h⟩ := ok_of_bind h
  split at h
  · cases h
  · cases h
  · next c' hfile =>
    obtain rfl : c' = c := by simpa using h
    exact ⟨n, hn, fileAt?_eq_some.mpr hfile⟩

/-- What is known after a file was moved. -/
theorem move_ok {a b : Location} (h : d.move a b = .ok e) :
    ∃ source above name c, d.find a = .ok source ∧ d.fileAt? source = some c ∧
      d.find b = .ok (above ++ [name]) ∧ d.entry? above = some .folder ∧
      d.entry? (above ++ [name]) ≠ some .folder ∧
      e = if above ++ [name] = source then d.put (above ++ [name]) (.file c)
        else ⟨(d.put (above ++ [name]) (.file c)).entries.remove source⟩ := by
  unfold move at h
  obtain ⟨source, hsource, h⟩ := ok_of_bind h
  obtain ⟨target, htarget, h⟩ := ok_of_bind h
  obtain ⟨c, hc, h⟩ := ok_of_bind h
  obtain ⟨written, hwritten, h⟩ := ok_of_bind h
  obtain ⟨above, name, hfind, hfolder, hfree, rfl⟩ := writeContent_ok hwritten
  obtain rfl : target = above ++ [name] := by
    rw [htarget] at hfind
    simpa using hfind
  obtain ⟨source', hsource', hfile⟩ := content_ok hc
  obtain rfl : source = source' := by
    rw [hsource] at hsource'
    simpa using hsource'
  refine ⟨source, above, name, c, hsource, hfile, hfind, hfolder, hfree, ?_⟩
  split at h
  · next heq => simpa [heq] using h.symm
  · next hne => simpa [hne] using h.symm

theorem frame_writeText {s : String} (h : d.writeText l s = .ok e) :
    Frame (fun n => Location.resolve l = some n) d e := by
  obtain ⟨above, name, hfind, hfolder, hfree, rfl⟩ := writeContent_ok h
  refine (frame_put hfolder hfree _).mono ?_
  rintro n rfl
  exact resolve_of_find hfind

theorem frame_move {a b : Location} (h : d.move a b = .ok e) :
    Frame (fun n => Location.resolve a = some n ∨ Location.resolve b = some n) d e := by
  obtain ⟨source, above, name, c, hsource, hfile, hfind, hfolder, hfree, rfl⟩ := move_ok h
  have hput := (frame_put hfolder hfree c).mono (T := fun n =>
    Location.resolve a = some n ∨ Location.resolve b = some n) (by
      rintro n rfl
      exact .inr (resolve_of_find hfind))
  split
  · exact hput
  · next hne =>
    refine hput.trans ?_
    have hfile' : (d.put (above ++ [name]) (.file c)).fileAt? source = some c := by
      rw [fileAt?_put (by simp), if_neg (Ne.symm hne), hfile]
    refine (frame_remove hfile').mono ?_
    rintro n rfl
    exact .inl (resolve_of_find hsource)

end Retarget.Disk

namespace Retarget.Staged

variable {d e : Disk} {op : Staged}

/-- The places that an operation touches. -/
def Touches (op : Staged) (n : List String) : Prop :=
  ∃ p ∈ op.paths, Location.resolve p = some n

/-- An operation that is carried out changes files at its places only. -/
theorem frame_perform (h : op.perform d = .ok e) : Disk.Frame op.Touches d e := by
  cases op with
  | write p s =>
    obtain ⟨made, hmade, h⟩ := ok_of_bind h
    refine ((Disk.frame_makeFolders hmade).mono fun _ => False.elim).trans ?_
    refine (Disk.frame_writeText h).mono fun n hn => ⟨p, by simp [paths], hn⟩
  | rename a b s =>
    obtain ⟨made, hmade, h⟩ := ok_of_bind h
    refine ((Disk.frame_makeFolders hmade).mono fun _ => False.elim).trans ?_
    split at h
    · refine (Disk.frame_move h).mono ?_
      rintro n (hn | hn)
      · exact ⟨a, by simp [paths], hn⟩
      · exact ⟨b, by simp [paths], hn⟩
    · exact (Disk.frame_writeText h).mono fun n hn => ⟨b, by simp [paths], hn⟩

/-- Operations that are carried out change files at their places only. -/
theorem frame_performAll {ops : List Staged} (h : performAll d ops = .ok e) :
    Disk.Frame (fun n => ∃ op ∈ ops, op.Touches n) d e := by
  induction ops generalizing d with
  | nil =>
    obtain rfl : d = e := by simpa [performAll, pure, Except.pure] using h
    exact .refl _ d
  | cons op ops ih =>
    obtain ⟨d', hop, hrest⟩ := performAll_cons_inv h
    have hfirst := (frame_perform hop).mono (T := fun n => ∃ op' ∈ op :: ops, op'.Touches n)
      fun n hn => ⟨op, List.mem_cons_self, hn⟩
    refine hfirst.trans ((ih hrest).mono ?_)
    rintro n ⟨op', hop', hn⟩
    exact ⟨op', List.mem_cons_of_mem _ hop', hn⟩

/-- An operation that fails changes no file. -/
theorem frame_attempt_error {f : Disk.Fault} (h : op.attempt d = (e, .error f)) :
    Disk.Frame (fun _ => False) d e := by
  rcases attempt_cases d op with ⟨e', -, hatt⟩ | ⟨e', f', -, hatt, rfl | hmade⟩
  · simp [hatt] at h
  · obtain ⟨rfl, -⟩ : e' = e ∧ f' = f := by simpa [hatt] using h
    exact .refl _ e'
  · obtain ⟨rfl, -⟩ : e' = e ∧ f' = f := by simpa [hatt] using h
    exact Disk.frame_makeFolders hmade

end Retarget.Staged
