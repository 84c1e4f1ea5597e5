import Retarget.Proofs.Disk.Attempting
import Retarget.Proofs.Staging.Session

/-!
# A log that accounts for disk and view

What a log does is told by `Staged.carry`: an operation gives a path a text, or moves
what stands at one path to another.  `Disk.carried` is what stands where after a log was
carried out on what a disk held.

`Staging.Sound` is the invariant of programs that nobody disturbs.  The disk is the
initial one with the first `flushed` operations carried out, and the notes tell what the
initial disk held.  The view then is the whole log carried out (`Sound.read_eq`), and a
flush gets as far as the operations go (`Sound.flush_spec`).
-/

namespace Retarget

namespace Staged

variable {d e : Disk} {log ops more : List Staged} {l : Location}

/-- Carries an operation out on what stands where; a rename moves what it finds. -/
def carry (c : Location → Option Content) : Staged → Location → Option Content
  | write p s => fun l => if l = p then some (.text s) else c l
  | rename a b _ => fun l => if l = b then c a else if l = a then none else c l

theorem carry_of_not_mem {op : Staged} (c : Location → Option Content) (h : l ∉ op.paths) :
    carry c op l = c l := by
  cases op with
  | write p s =>
    have hp : l ≠ p := by simpa [paths] using h
    simp [carry, hp]
  | rename a b s =>
    obtain ⟨ha, hb⟩ : l ≠ a ∧ l ≠ b := by simpa [paths] using h
    simp [carry, ha, hb]

/-- Operations that are carried out are carried out part by part. -/
theorem performAll_append (h : performAll d (ops ++ more) = .ok e) :
    ∃ e', performAll d ops = .ok e' ∧ performAll e' more = .ok e := by
  unfold performAll at h ⊢
  rw [List.foldlM_append] at h
  exact ok_of_bind h

/-- How far a log can be carried out on a disk, and what it leaves. -/
structure Stops (d : Disk) (log : List Staged) (k : Nat) (e : Disk) : Prop where
  le : k ≤ log.length
  performed : performAll d (log.take k) = .ok e
  fails : ∀ op, log[k]? = some op → ∃ f, op.perform e = .error f

/-- A log stops in one place only. -/
theorem Stops.unique {j k : Nat} {e' : Disk} (h : Stops d log j e) (h' : Stops d log k e') :
    j = k ∧ e = e' := by
  have notBefore {j k : Nat} {e e' : Disk} (h : Stops d log j e) (h' : Stops d log k e') :
      ¬j < k := by
    intro hlt
    have hj : j < log.length := Nat.lt_of_lt_of_le hlt h'.le
    obtain ⟨f, hf⟩ := h.fails log[j] (List.getElem?_eq_getElem hj)
    -- the operation that fails is among those that were carried out
    have hsplit : log.take k = log.take j ++ (log[j] :: (log.drop (j + 1)).take (k - (j + 1))) := by
      rw [show k = j + (k - j) by omega, List.take_add, List.drop_eq_getElem_cons hj,
        show k - j = (k - (j + 1)) + 1 by omega, List.take_succ_cons]
      congr 4
      omega
    have hall := h'.performed
    rw [hsplit] at hall
    obtain ⟨d', hd', hrest⟩ := performAll_append hall
    obtain rfl : e = d' := Except.ok.inj (h.performed.symm.trans hd')
    obtain ⟨d'', hd'', -⟩ := performAll_cons_inv hrest
    rw [hf] at hd''
    cases hd''
  have heq : j = k := Nat.le_antisymm (Nat.le_of_not_lt (notBefore h' h))
    (Nat.le_of_not_lt (notBefore h h'))
  subst heq
  exact ⟨rfl, Except.ok.inj (h.performed.symm.trans h'.performed)⟩

end Staged

namespace Disk

variable {d e : Disk} {log ops more : List Staged} {l : Location}

/-- What stands where after a log was carried out. -/
def carried (d : Disk) (log : List Staged) : Location → Option Content :=
  log.foldl Staged.carry d.file?

theorem carried_of_not_mem (h : ∀ op ∈ log, l ∉ op.paths) : d.carried log l = d.file? l := by
  have hold (c : Location → Option Content) : log.foldl Staged.carry c l = c l := by
    induction log generalizing c with
    | nil => rfl
    | cons op log ih =>
      rw [List.foldl_cons, ih fun op' hop => h op' (List.mem_cons_of_mem _ hop)]
      exact Staged.carry_of_not_mem c (h op List.mem_cons_self)
  exact hold d.file?

theorem truthful_of_append (h : d.Truthful log (ops ++ more)) : d.Truthful log ops := by
  induction ops generalizing log with
  | nil => trivial
  | cons op ops ih => exact ⟨h.1, ih h.2⟩

theorem truthful_take (h : d.Truthful [] log) (k : Nat) : d.Truthful [] (log.take k) := by
  rw [← List.take_append_drop k log] at h
  exact truthful_of_append h

/-- What a log shows is what it does, if its renames carry what they find. -/
theorem shown_eq_carried (h : d.Truthful [] log) : d.shown log = d.carried log := by
  have grow (log before : List Staged) (h : d.Truthful before log) :
      d.shown (before ++ log) = log.foldl Staged.carry (d.shown before) := by
    induction log generalizing before with
    | nil => simp
    | cons op log ih =>
      have hop : d.shown (before ++ [op]) = Staged.carry (d.shown before) op := by
        funext l
        cases op with
        | write p s => exact d.shown_write before p s l
        | rename a b s =>
          rw [shown_rename, Staged.carry, h.1 a b s rfl]
      rw [List.foldl_cons, ← hop, ← ih (before ++ [op]) h.2, List.append_assoc,
        List.singleton_append]
  exact grow log [] h

/-- Operations on plain paths leave on the disk what they do. -/
theorem file?_of_performAll (hd : d.Rooted) (hplain : ∀ op ∈ log, ∀ p ∈ op.paths, p.Plain)
    (htrue : d.Truthful [] log) (h : Staged.performAll d log = .ok e) (hl : l.Plain) :
    e.file? l = d.carried log l := by
  have hclear {p : Location} (hp : p.Plain) : Clear d e Location.Plain p := by
    obtain ⟨names, rfl⟩ := hp
    exact clear_of_names d e (fun _ hk => hk) names
  have hmirrors := mirrors_performAll (mirrors_nil hd e Location.Plain)
    (fun op hop p hp => ⟨hplain op hop p hp, hclear (hplain op hop p hp)⟩) htrue h fun _ hn => hn
  rw [← shown_eq_carried htrue]
  exact hmirrors.files l (hclear hl)

theorem isFile_empty (l : Location) : Disk.empty.isFile l = false := by
  rw [Bool.eq_false_iff]
  intro hfile
  obtain ⟨n, c, -, hc⟩ := isFile_iff.mp hfile
  exact absurd (mem_entries_of_fileAt? hc) (by simp [Disk.empty])

end Disk

namespace Staging

variable {base : Option Disk} {t u : Staging} {l : Location}

/-- The disk that operations leave, if there is a disk. -/
def performOn (log : List Staged) : Option Disk → Except Disk.Fault (Option Disk)
  | none => .ok none
  | some d => (Staged.performAll d log).map some

/-- A staging whose log accounts for its disk and its notes: the disk is the initial one
with what counts as flushed carried out, and the notes are true of the initial disk. -/
structure Sound (base : Option Disk) (t : Staging) : Prop where
  coherent : t.Coherent
  plain : ∀ op ∈ t.log, ∀ p ∈ op.paths, p.Plain
  truthful : (base.getD .empty).Truthful [] t.log
  noted : ∀ l, l.Plain → ∀ state, t.firstSeen.get? l = some state →
    (fresh base).readDisk l = .ok state
  disk : performOn (t.log.take t.flushed) base = .ok t.disk

/-- A directory as file systems have it, if there is one. -/
def Rooted (base : Option Disk) : Prop :=
  ∀ d, base = some d → d.Rooted

theorem sound_fresh (base : Option Disk) : (fresh base).Sound base where
  coherent := ⟨rfl, Nat.le_refl _, by simp [fresh]⟩
  plain := by simp [fresh]
  truthful := trivial
  noted := by simp [fresh, OrderedMap.get?]
  disk := by cases base <;> rfl

/-! ## What is seen -/

theorem Sound.disk_none (h : t.Sound none) : t.disk = none :=
  (Except.ok.inj h.disk).symm

theorem Sound.disk_some {d : Disk} (h : t.Sound (some d)) :
    ∃ e, t.disk = some e ∧ Staged.performAll d (t.log.take t.flushed) = .ok e := by
  have hdisk := h.disk
  unfold performOn at hdisk
  cases hall : Staged.performAll d (t.log.take t.flushed) with
  | error f => simp [hall, Except.map] at hdisk
  | ok e => exact ⟨e, by simpa [hall, Except.map, eq_comm] using hdisk, rfl⟩

/-- What no operation touches stands as it stood at first. -/
theorem Sound.file?_of_not_mem (h : t.Sound base) (hbase : Rooted base) (hl : l.Plain)
    (hfree : ∀ op ∈ t.log, l ∉ op.paths) :
    (t.disk.getD .empty).file? l = (base.getD .empty).file? l := by
  cases base with
  | none => rw [h.disk_none]
  | some d =>
    obtain ⟨e, he, hall⟩ := h.disk_some
    have hmem {op : Staged} (hop : op ∈ t.log.take t.flushed) := List.mem_of_mem_take hop
    rw [he, Option.getD_some, Option.getD_some,
      Disk.file?_of_performAll (hbase d rfl) (fun op hop => h.plain op (hmem hop))
        (Disk.truthful_take h.truthful _) hall hl]
    exact Disk.carried_of_not_mem fun op hop => hfree op (hmem hop)

/-- A staging in memory is seen like one of an empty directory. -/
def onDisk (t : Staging) : Staging :=
  { t with disk := some (t.disk.getD .empty) }

theorem read_onDisk (t : Staging) (l : Location) : t.onDisk.read l = t.read l := by
  cases hd : t.disk with
  | none => simp [onDisk, read, readDisk, hd, Disk.isFile_empty]
  | some d => simp [onDisk, read, readDisk, hd]

theorem exists_onDisk (t : Staging) (l : Location) : t.onDisk.exists_ l = t.exists_ l := by
  cases hd : t.disk with
  | none => simp [onDisk, exists_, hd, Disk.isFile_empty]
  | some d => simp [onDisk, exists_, hd]

/-- What stands where after a log, on top of the disk there was at first. -/
def contents (base : Option Disk) (log : List Staged) : Location → Option Content :=
  (base.getD .empty).carried log

theorem Sound.shown_eq (h : t.Sound base) (hbase : Rooted base) (hl : l.Plain) :
    (t.disk.getD .empty).shown t.log l = contents base t.log l := by
  rw [contents, ← Disk.shown_eq_carried h.truthful]
  unfold Disk.shown
  cases hget : OrderedMap.get? (Staged.replay t.log) l with
  | some state => rfl
  | none =>
    refine h.file?_of_not_mem hbase hl fun op hop hmem => ?_
    have hhas := Staged.has_replay_iff.mpr ⟨op, hop, hmem⟩
    simp [OrderedMap.has, hget] at hhas

/-- What a path reads as is what the log leaves there. -/
theorem Sound.read_eq (h : t.Sound base) (hbase : Rooted base) (hl : l.Plain) :
    t.read l = reading l (contents base t.log l) := by
  rw [← read_onDisk, ← h.shown_eq hbase hl]
  exact read_eq_reading (t := t.onDisk) h.coherent.overlay_eq rfl l

/-- A file is seen where the log leaves one. -/
theorem Sound.exists_eq (h : t.Sound base) (hbase : Rooted base) (hl : l.Plain) :
    t.exists_ l = (contents base t.log l).isSome := by
  rw [← exists_onDisk, ← h.shown_eq hbase hl]
  exact exists_eq_isSome (t := t.onDisk) h.coherent.overlay_eq rfl l

/-- What a path held at first is what it held when nothing was staged yet. -/
theorem Sound.original_eq (h : t.Sound base) (hbase : Rooted base) (hl : l.Plain) :
    t.original l = (fresh base).readDisk l := by
  unfold original
  cases hseen : OrderedMap.get? t.firstSeen l with
  | some state => exact (h.noted l hl state hseen).symm
  | none =>
    have hfree : ∀ op ∈ t.log, l ∉ op.paths := by
      intro op hop hmem
      have hhas := h.coherent.seen op hop l hmem
      simp [OrderedMap.has, hseen] at hhas
    have hget : OrderedMap.get? t.overlay l = none := by
      rw [h.coherent.overlay_eq, ← Option.not_isSome_iff_eq_none]
      intro hsome
      obtain ⟨op, hop, hmem⟩ := Staged.has_replay_iff.mp hsome
      exact hfree op hop hmem
    simp only [hget]
    have hfile := h.file?_of_not_mem hbase hl hfree
    cases base with
    | none => simp [readDisk, fresh, h.disk_none]
    | some d =>
      obtain ⟨e, he, -⟩ := h.disk_some
      rw [he, Option.getD_some, Option.getD_some] at hfile
      rw [readDisk_eq he, readDisk_eq (t := fresh (some d)) rfl, hfile]

/-! ## What operations keep -/

/-- Staging an operation on plain paths, if a rename carries what is seen. -/
theorem Sound.staged (h : t.Sound base) (hbase : Rooted base) {op : Staged}
    {S : Location → Prop} (hgrown : Grown S t u) (hlog : u.log = t.log ++ [op])
    (hplain : ∀ p ∈ op.paths, p.Plain)
    (htrue : ∀ a b s, op = .rename a b s → t.read a = .ok s) : u.Sound base where
  coherent := hgrown.coherent h.coherent
  plain := by
    intro op' hop
    rw [hlog] at hop
    rcases List.mem_append.mp hop with hop | hop
    · exact h.plain op' hop
    · rw [List.mem_singleton.mp hop]
      exact hplain
  truthful := by
    rw [hlog]
    refine Disk.truthful_append h.truthful ⟨fun a b s hop => ?_, trivial⟩
    have ha : a.Plain := hplain a (by simp [hop, Staged.paths])
    rw [List.nil_append, Disk.shown_eq_carried h.truthful]
    have hread := htrue a b s hop
    rw [h.read_eq hbase ha] at hread
    unfold reading at hread
    split at hread
    · next hcontent => rw [← Except.ok.inj hread]; exact hcontent
    · cases hread
    · cases hread
  noted := by
    intro l hl state hseen
    have horiginal : u.original l = .ok state := by simp [original, hseen]
    rw [← horiginal, hgrown.original, h.original_eq hbase hl]
  disk := by
    rw [hgrown.disk, hgrown.flushed, hlog, List.take_append_of_le_length h.coherent.flushed_le]
    exact h.disk

theorem Sound.of_agree (h : t.Sound base) (hbase : Rooted base) (hagree : t.Agree u)
    (hcoherent : u.Coherent) : u.Sound base where
  coherent := hcoherent
  plain := by rw [← hagree.log]; exact h.plain
  truthful := by rw [← hagree.log]; exact h.truthful
  noted := by
    intro l hl state hseen
    have horiginal : u.original l = .ok state := by simp [original, hseen]
    rw [← horiginal, ← hagree.original, h.original_eq hbase hl]
  disk := by rw [← hagree.log, ← hagree.flushed, ← hagree.disk]; exact h.disk

theorem Sound.write (h : t.Sound base) (hbase : Rooted base) {p : Location} (hp : p.Plain)
    {s : String} (hw : t.write p s = .ok u) : u.Sound base :=
  h.staged hbase (grown_of_write hw) (write_ok hw).2.2 (by simpa [Staged.paths] using hp)
    (by simp)

theorem Sound.rename (h : t.Sound base) (hbase : Rooted base) {a b : Location} (ha : a.Plain)
    (hb : b.Plain) : (t.rename a b).1.Sound base := by
  have hgrown := grown_rename t a b
  rcases t.rename_cases a b with ⟨u, held, hu, -, hread, -, -, hlog⟩ | ⟨u, f, hu, hagree⟩
  · rw [hu] at hgrown ⊢
    refine h.staged hbase hgrown hlog (by simpa [Staged.paths] using ⟨ha, hb⟩) ?_
    rintro a' b' s heq
    cases heq
    exact hread
  · rw [hu] at hgrown ⊢
    exact h.of_agree hbase hagree (hgrown.coherent h.coherent)

theorem Sound.rollback (h : t.Sound base) (m : Mark) : (t.rollback m).Sound base := by
  have hcoherent := h.coherent.rollback m
  rcases t.rollback_eq m with ⟨heq, -⟩ | heq
  · rw [heq]
    exact h
  · rw [heq] at hcoherent ⊢
    refine ⟨hcoherent, fun op hop => h.plain op (List.mem_of_mem_take hop),
      Disk.truthful_take h.truthful _, h.noted, ?_⟩
    rw [List.take_take, Nat.min_eq_left (Nat.le_max_right _ _)]
    exact h.disk

/-- A flush carries the log out as far as it goes, and says so. -/
theorem Sound.flush_spec {d : Disk} (h : t.Sound (some d)) (hd : d.Rooted) :
    ∃ e k, t.flush.1 = { t with disk := some e, flushed := k } ∧ Staged.Stops d t.log k e ∧
      (t.flush.2.isOk = true ↔ k = t.log.length) := by
  obtain ⟨e₀, he₀, hdone⟩ := h.disk_some
  have hle := h.coherent.flushed_le
  rcases flush_cases he₀ with
    ⟨e, hall, hflush⟩ | ⟨done, op, rest, e, e', f, hops, hall, hfails, hflush⟩
  · have hk : t.flushed + (t.log.drop t.flushed).length = t.log.length := by
      rw [List.length_drop]
      omega
    rw [hk] at hflush
    refine ⟨e, t.log.length, by rw [hflush], ⟨Nat.le_refl _, ?_, by simp⟩, by simp [hflush,
      Except.isOk, Except.toBool]⟩
    rw [List.take_length, ← List.take_append_drop t.flushed t.log,
      Staged.performAll_append_ok hdone, hall]
  · have hlog : t.log = t.log.take t.flushed ++ (done ++ op :: rest) := by
      rw [← hops, List.take_append_drop]
    have hlength : (t.log.take t.flushed).length = t.flushed := by
      rw [List.length_take, Nat.min_eq_left hle]
    have htake : t.log.take (t.flushed + done.length) = t.log.take t.flushed ++ done := by
      conv_lhs => rw [hlog, ← List.append_assoc]
      exact List.take_left' (by rw [List.length_append, hlength])
    have hnext : t.log[t.flushed + done.length]? = some op := by
      rw [hlog, ← List.append_assoc, List.getElem?_append_right (by simp [hlength])]
      simp [hlength]
    have hlt := (List.getElem?_eq_some_iff.mp hnext).1
    have hreached : Staged.performAll d (t.log.take t.flushed ++ done) = .ok e := by
      rw [Staged.performAll_append_ok hdone, hall]
    -- the folders above the path of the operation that failed were there
    obtain rfl : e' = e := by
      obtain ⟨names, hnames⟩ : op.target.Plain :=
        h.plain op (List.mem_of_getElem? hnext) _ (by cases op <;> simp [Staged.target,
          Staged.paths])
      exact Staged.attempt_error ((Staged.frame_performAll hreached).rooted hd) hnames hfails
    refine ⟨e', t.flushed + done.length, by rw [hflush],
      ⟨Nat.le_of_lt hlt, by rw [htake, hreached], fun op' hop' => ?_⟩, ?_⟩
    · obtain rfl : op = op' := Option.some.inj (hnext.symm.trans hop')
      rcases Staged.attempt_cases e' op with ⟨e'', -, hatt⟩ | ⟨e'', f', hfails', -, -⟩
      · rw [hatt] at hfails
        cases (Prod.mk.inj hfails).2
      · exact ⟨f', hfails'⟩
    · rw [hflush]
      simp only [Except.isOk, Except.toBool, Bool.false_eq_true, false_iff]
      omega

theorem Sound.flush (h : t.Sound base) (hbase : Rooted base) : t.flush.1.Sound base := by
  have hcoherent := h.coherent.flush
  cases base with
  | none =>
    rw [flush_of_disk_eq_none h.disk_none] at hcoherent ⊢
    exact ⟨hcoherent, h.plain, h.truthful, h.noted, by rw [h.disk_none]; rfl⟩
  | some d =>
    obtain ⟨e, k, heq, hstops, -⟩ := h.flush_spec (hbase d rfl)
    rw [heq] at hcoherent ⊢
    exact ⟨hcoherent, h.plain, h.truthful, h.noted, by simp [performOn, hstops.performed, Except.map]⟩

namespace Session

variable {s : Session}

/-- An action on plain paths keeps the log accounting for everything. -/
theorem sound_act (hbase : Rooted base) (h : s.staging.Sound base) {a : Action} (ha : a.Plain) :
    (s.act a).1.staging.Sound base := by
  cases a with
  | exists_ p => exact h
  | read p => exact h
  | write p x =>
    cases hw : s.staging.write p.location x with
    | error f => simpa [act, hw] using h
    | ok t =>
      have := h.write hbase ha hw
      simpa [act, hw] using this
  | rename a b => exact h.rename hbase ha.1 ha.2
  | mark => exact h
  | rollback i =>
    cases hm : s.marks[i]? with
    | none => simpa [act, hm] using h
    | some m => simpa [act, hm] using h.rollback m
  | flush => exact h.flush hbase
  | pending => exact h
  | changes => exact h

/-- A program on plain paths keeps the log accounting for everything. -/
theorem sound_after (hbase : Rooted base) (h : s.staging.Sound base) {program : List Action}
    (hplain : ∀ a ∈ program, a.Plain) : (s.after program).staging.Sound base := by
  induction program generalizing s with
  | nil => exact h
  | cons a rest ih =>
    exact ih (sound_act hbase h (hplain a List.mem_cons_self)) fun b hb =>
      hplain b (List.mem_cons_of_mem _ hb)

end Session

/-! ## A directory to work in -/

/-- A directory with a text, a file that is no text, and a folder. -/
def workshop : Disk :=
  ⟨[(["a"], .folder), (["a", "w.js"], .file (.text "old")), (["bin"], .file (.raw [255]))]⟩

theorem rooted_workshop : Rooted (some workshop) := by
  intro d hd
  obtain rfl := Option.some.inj hd
  exact Disk.rooted_of_entries (by decide)

/-- Moves a file, writes one in its place, and then fails twice: one file is no text, and
a folder is in the way of the other. -/
def errands : List Action :=
  [.rename ⟨"a/w.js"⟩ ⟨"a/v.js"⟩, .write ⟨"a/w.js"⟩ "new", .mark, .flush,
    .write ⟨"bin"⟩ "text", .write ⟨"n.js"⟩ "draft", .rollback 0, .write ⟨"a"⟩ "blocked", .flush]

theorem plain_errands : ∀ a ∈ errands, a.Plain := by
  have hplain {p : Path} (names : List String) (h : p.location = names.map .name) :
      p.location.Plain := ⟨names, h⟩
  simp only [errands, List.forall_mem_cons]
  exact ⟨⟨hplain ["a", "w.js"] (by decide), hplain ["a", "v.js"] (by decide)⟩,
    hplain ["a", "w.js"] (by decide), trivial, trivial, hplain ["bin"] (by decide),
    hplain ["n.js"] (by decide), trivial, hplain ["a"] (by decide), trivial, by simp⟩

end Staging

end Retarget
