import Retarget.Plugin
import Retarget.Proofs.Staging.Alike

/-!
# Putting a config in place

`PluginConfig.synthesize` either archives the old config and puts the new one in its place,
or leaves the staging as it was.  Whatever can go wrong goes wrong before an operation is
staged: once the rename went through, both paths are noted, and the write that follows cannot
fail.

No config is archived twice.  As long as nothing moves the archive away, its path is taken,
and that is what stops the next attempt.
-/

namespace Retarget

namespace Staging

variable {t u v : Staging} {a b p : Location} {s : String}

/-- A file that can be read is there. -/
theorem exists_of_read (h : t.read p = .ok s) : t.exists_ p = true := by
  unfold read at h
  unfold exists_
  rcases ho : OrderedMap.get? t.overlay p with _ | _ | held
  · simp only [ho, readDisk] at h ⊢
    rcases hd : t.disk with _ | d
    · simp [hd] at h
    · cases hf : d.isFile p with
      | true => simp [hf]
      | false => simp [hd, hf] at h
  · simp [ho] at h
  · simp

/-- What a path held at first can be told if a file is read there. -/
theorem original_of_read (h : t.read p = .ok s) : ∃ state, t.original p = .ok state := by
  unfold read at h
  unfold original
  cases OrderedMap.get? t.firstSeen p with
  | some state => exact ⟨state, rfl⟩
  | none =>
    cases ho : OrderedMap.get? t.overlay p with
    | some state => exact ⟨state, rfl⟩
    | none =>
      cases hr : t.readDisk p with
      | ok state => exact ⟨state, rfl⟩
      | error f => simp [ho, hr] at h

/-- What a path held at first can be told if no file is there. -/
theorem original_of_free (h : t.exists_ p = false) : ∃ state, t.original p = .ok state := by
  unfold exists_ at h
  unfold original
  cases OrderedMap.get? t.firstSeen p with
  | some state => exact ⟨state, rfl⟩
  | none =>
    cases ho : OrderedMap.get? t.overlay p with
    | some state => exact ⟨state, rfl⟩
    | none =>
      refine ⟨none, ?_⟩
      rcases hd : t.disk with _ | d
      · simp [readDisk, hd]
      · have hf : d.isFile p = false := by simpa [ho, hd] using h
        simp [readDisk, hd, hf]

theorem remember_of_original {state : Option String} (h : t.original p = .ok state) :
    ∃ u, t.remember p = .ok u := by
  rw [remember_eq, h]
  exact ⟨_, rfl⟩

/-- A rename to a free path from one that reads goes through, and both paths are noted. -/
theorem rename_of_read (hfree : t.exists_ b = false) (hread : t.read a = .ok s) :
    ∃ u, t.rename a b = (u.stage (.rename a b s), .ok ()) ∧ t.Agree u ∧
      u.firstSeen.has a = true := by
  obtain ⟨_, ha⟩ := original_of_read hread
  obtain ⟨u, hu⟩ := remember_of_original ha
  obtain ⟨-, horiginal, hseen, -⟩ := remember_ok hu
  obtain ⟨state, hb⟩ := original_of_free hfree
  obtain ⟨v, hv⟩ := remember_of_original ((horiginal b).trans hb)
  obtain ⟨-, -, -, hkeeps⟩ := remember_ok hv
  refine ⟨v, ?_, (agree_of_remember hu).trans (agree_of_remember hv), hkeeps a hseen⟩
  simp [rename, relink, hfree, hread, hu, hv]

/-- A write to a path that is noted goes through. -/
theorem write_of_seen (h : t.firstSeen.has p = true) (s : String) :
    t.write p s = .ok (t.stage (.write p s)) := by
  simp [write, remember, h]

/-- What comes of a staging by writes and by renames that do not move a file at `p` away. -/
inductive Keeps (p : Location) (t : Staging) : Staging → Prop
  | refl : Keeps p t t
  | write {u v : Staging} {x : Location} {s : String} (earlier : Keeps p t u)
      (written : u.write x s = .ok v) : Keeps p t v
  | rename {u : Staging} (earlier : Keeps p t u) (a b : Location)
      (stays : a = p → (u.rename a b).2 ≠ .ok ()) : Keeps p t (u.rename a b).1

/-- A file is still there after a write. -/
theorem exists_of_write (h : t.write a s = .ok u) (hp : t.exists_ p = true) :
    u.exists_ p = true := by
  unfold write at h
  cases hr : t.remember a with
  | error f => simp [hr] at h
  | ok v =>
    obtain rfl : v.stage (.write a s) = u := by simpa [hr] using h
    rw [exists_stage, ← (agree_of_remember hr).exists_, hp]
    by_cases hpath : p = a
    · simp [Staged.apply, OrderedMap.get?_insert, hpath]
    · simp [Staged.apply, OrderedMap.get?_insert, OrderedMap.get?, hpath]

/-- A file is still there after a rename that did not move it. -/
theorem exists_of_rename (stays : a = p → (t.rename a b).2 ≠ .ok ())
    (hp : t.exists_ p = true) : (t.rename a b).1.exists_ p = true := by
  cases hb : t.exists_ b with
  | true => simpa [rename, hb] using hp
  | false =>
    cases ha : t.read a with
    | error f => simpa [rename, hb, ha] using hp
    | ok held =>
      obtain ⟨u, hu, hagree, -⟩ := rename_of_read hb ha
      have hne : p ≠ a := by
        rintro rfl
        exact stays rfl (by rw [hu])
      rw [hu, exists_stage, ← hagree.exists_, hp]
      by_cases hpath : p = b
      · simp [Staged.apply, OrderedMap.get?_insert, hpath]
      · simp [Staged.apply, OrderedMap.get?_insert, OrderedMap.get?, hpath, hne]

/-- A file stays where it is as long as no rename moves it. -/
theorem Keeps.exists_ (h : Keeps p t u) (hp : t.exists_ p = true) : u.exists_ p = true := by
  induction h with
  | refl => exact hp
  | write _ hwritten ih => exact exists_of_write hwritten ih
  | rename _ a b hstays ih => exact exists_of_rename hstays ih

end Staging

namespace PluginConfig

variable {c : PluginConfig} {t u v : Staging} {config : Path} {e : Extracted} {held : String}

/-- Why a config is not put in place, in the order in which it is looked at: the new text is
no program in the language of the file, the archive path is taken, or the old config is
missing or unreadable. -/
inductive Refused (c : PluginConfig) (t : Staging) (config : Path) (e : Extracted) :
    Failure → Prop
  | unsound {f : Failure} (rejected : check (c.contents e) config = .error f) :
      Refused c t config e f
  | taken (sound : check (c.contents e) config = .ok ())
      (there : t.exists_ (c.archivePath config).location = true) :
      Refused c t config e (.archiveExists (c.archivePath config))
  | unread {f : Failure} (sound : check (c.contents e) config = .ok ())
      (free : t.exists_ (c.archivePath config).location = false)
      (failed : t.read config.location = .error f) : Refused c t config e f

/-- A config that was put in place, with what the old one held at its archive path. -/
structure InPlace (c : PluginConfig) (t : Staging) (config : Path) (e : Extracted)
    (held : String) (u : Staging) : Prop where
  sound : check (c.contents e) config = .ok ()
  free : t.exists_ (c.archivePath config).location = false
  was : t.read config.location = .ok held
  log : u.log = t.log ++
    [.rename config.location (c.archivePath config).location held,
      .write config.location (c.contents e)]
  archived : u.read (c.archivePath config).location = .ok held
  replaced : u.read config.location = .ok (c.contents e)
  others_read : ∀ x, x ≠ config.location → x ≠ (c.archivePath config).location →
    u.read x = t.read x
  others_exist : ∀ x, x ≠ config.location → x ≠ (c.archivePath config).location →
    u.exists_ x = t.exists_ x

/-- A refused attempt leaves the staging as it was. -/
theorem refused_of_synthesize {f : Failure} (h : c.synthesize t config e = (u, .error f)) :
    Refused c t config e f ∧ u = t := by
  unfold synthesize at h
  cases hcheck : check (c.contents e) config with
  | error g =>
    simp only [render, hcheck, Prod.mk.injEq, Except.error.injEq] at h
    obtain ⟨rfl, rfl⟩ := h
    exact ⟨.unsound hcheck, rfl⟩
  | ok done =>
    cases hfree : t.exists_ (c.archivePath config).location with
    | true =>
      simp only [render, hcheck, hfree, if_true, Prod.mk.injEq, Except.error.injEq] at h
      obtain ⟨rfl, rfl⟩ := h
      exact ⟨.taken hcheck hfree, rfl⟩
    | false =>
      cases hread : t.read config.location with
      | error g =>
        simp only [render, hcheck, hfree, Bool.false_eq_true, if_false, Staging.rename, hread,
          Prod.mk.injEq, Except.error.injEq] at h
        obtain ⟨rfl, rfl⟩ := h
        exact ⟨.unread hcheck hfree hread, rfl⟩
      | ok held =>
        obtain ⟨v, hrename, -, hseen⟩ := Staging.rename_of_read hfree hread
        simp [render, hcheck, hfree, hrename,
          Staging.write_of_seen (t := v.stage _) (p := config.location) hseen] at h

/-- What an attempt leaves that went through. -/
theorem inPlace_of_synthesize {s : Synthesized} (h : c.synthesize t config e = (u, .ok s)) :
    s = ⟨config, c.archivePath config, c.contents e, c.notes e⟩ ∧
      ∃ held, InPlace c t config e held u := by
  unfold synthesize at h
  cases hcheck : check (c.contents e) config with
  | error g => simp [render, hcheck] at h
  | ok done =>
    cases hfree : t.exists_ (c.archivePath config).location with
    | true => simp [render, hcheck, hfree] at h
    | false =>
      cases hread : t.read config.location with
      | error g => simp [render, hcheck, hfree, Staging.rename, hread] at h
      | ok held =>
        obtain ⟨v, hrename, hagree, hseen⟩ := Staging.rename_of_read hfree hread
        simp only [render, hcheck, hfree, Bool.false_eq_true, if_false, hrename,
          Staging.write_of_seen (t := v.stage _) (p := config.location) hseen, Prod.mk.injEq,
          Except.ok.injEq] at h
        obtain ⟨rfl, rfl⟩ := h
        have hne : (c.archivePath config).location ≠ config.location := by
          intro heq
          rw [heq, Staging.exists_of_read hread] at hfree
          cases hfree
        refine ⟨rfl, held, hcheck, hfree, hread, ?_, ?_, ?_, ?_, ?_⟩
        · simp [Staging.stage, hagree.log]
        · simp [Staging.read_stage, Staged.apply, OrderedMap.get?_insert, OrderedMap.get?, hne]
        · simp [Staging.read_stage, Staged.apply, OrderedMap.get?_insert]
        · intro x hx hx'
          simp [Staging.read_stage, Staged.apply, OrderedMap.get?_insert, OrderedMap.get?, hx,
            hx', hagree.read]
        · intro x hx hx'
          simp [Staging.exists_stage, Staged.apply, OrderedMap.get?_insert, OrderedMap.get?, hx,
            hx', hagree.exists_]

/-- An attempt with a sound text is refused, and leaves all as it is, where the archive path
is taken. -/
theorem synthesize_of_taken (hcheck : check (c.contents e) config = .ok ())
    (h : t.exists_ (c.archivePath config).location = true) :
    c.synthesize t config e = (t, .error (.archiveExists (c.archivePath config))) := by
  simp [synthesize, render, hcheck, h]

/-- A staging with one old config, spelled without its leading `.`. -/
def oneConfig : Staging :=
  Staging.inMemory.stage (.write [.name "webpack.config.js"] "module.exports = withNx();\n")

end PluginConfig

end Retarget
