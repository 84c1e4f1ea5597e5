import Retarget.Proofs.Staging.Restoring

/-!
# A staging is written ahead of its disk

After every step the disk is the initial one with the flushed operations carried out, and
the view is the initial disk with the whole log carried out.  So nothing but the log
decides where a flush ends up, and where flushes are placed does not matter as long as no
rollback goes back behind one (`Session.Sheltered`): such a rollback keeps what is on the
disk, and the log is another one from then on.
-/

namespace Retarget.Staging

variable {d : Disk} {base : Option Disk} {t u : Staging}

/-- Nothing is pending, and every plain path is seen as it is on the disk. -/
def Synced (t : Staging) : Prop :=
  t.pending = false ∧ ∃ e, t.disk = some e ∧ ∀ l : Location, l.Plain →
    t.read l = (Staging.open e).read l ∧ t.exists_ l = (Staging.open e).exists_ l

/-- Where nothing is pending disk and view are equal. -/
theorem Sound.synced (h : t.Sound (some d)) (hd : d.Rooted) (hpending : t.pending = false) :
    t.Synced := by
  have hbase : Rooted (some d) := fun d' hd' => Option.some.inj hd' ▸ hd
  obtain ⟨e, he, hall⟩ := h.disk_some
  have hwhole : t.log.take t.flushed = t.log :=
    List.take_of_length_le (by simpa [pending] using hpending)
  rw [hwhole] at hall
  refine ⟨hpending, e, he, fun l hl => ?_⟩
  have hfile : e.file? l = contents (some d) t.log l :=
    Disk.file?_of_performAll hd h.plain h.truthful hall hl
  rw [h.read_eq hbase hl, h.exists_eq hbase hl, ← hfile]
  have hexists : (Staging.open e).exists_ l = (e.file? l).isSome :=
    exists_eq_isSome (show (Staging.open e).overlay = Staged.replay [] from rfl) rfl l
  exact ⟨(read_open e l).symm, hexists.symm⟩

/-- Where a flush ends up is decided by the log. -/
theorem SameLog.flush_disk (h : SameLog (some d) t u) (hd : d.Rooted) :
    u.flush.1.disk = t.flush.1.disk ∧ u.flush.2.isOk = t.flush.2.isOk := by
  obtain ⟨e, k, ht, hstops, hok⟩ := h.left.flush_spec hd
  obtain ⟨e', k', hu, hstops', hok'⟩ := h.right.flush_spec hd
  rw [← h.log] at hstops' hok'
  obtain ⟨rfl, rfl⟩ := hstops.unique hstops'
  refine ⟨by rw [ht, hu], ?_⟩
  rw [Bool.eq_iff_iff]
  exact hok'.trans hok.symm

namespace Session

variable {s v : Session} {a : Action}

/-- An action that does not go back to a mark behind which something was flushed. -/
def Spares (s : Session) : Action → Bool
  | .rollback i => (s.marks[i]?).all fun m => s.staging.flushed ≤ m.length
  | _ => true

/-- A program that never goes back to a mark behind which something was flushed. -/
def Sheltered : Session → List Action → Bool
  | _, [] => true
  | s, a :: rest => s.Spares a && Sheltered (s.act a).1 rest

/-- A session with the log and the marks of another one that never flushes. -/
structure Follows (base : Option Disk) (s v : Session) : Prop where
  log : SameLog base s.staging v.staging
  marks : s.marks = v.marks
  unflushed : v.staging.flushed = 0

/-- A flush leaves the log alone. -/
theorem Follows.flush (h : Follows base s v) (hbase : Rooted base) :
    Follows base (s.act .flush).1 v :=
  ⟨⟨h.log.left.flush hbase, h.log.right, (flush_log s.staging).trans h.log.log⟩, h.marks,
    h.unflushed⟩

/-- Every other action does the same to both logs, unless it goes back behind a flush. -/
theorem Follows.act (h : Follows base s v) (hbase : Rooted base) (ha : a.Plain)
    (hflush : a ≠ .flush) (hspares : s.Spares a = true) :
    Follows base (s.act a).1 (v.act a).1 := by
  obtain ⟨t, marks⟩ := s
  obtain ⟨u, marks'⟩ := v
  obtain rfl : marks = marks' := h.marks
  by_cases hrollback : ∃ i, a = .rollback i
  · obtain ⟨i, rfl⟩ := hrollback
    cases hm : marks[i]? with
    | none => simpa [Session.act, hm] using h
    | some m =>
      have hleft : t.flushed ≤ m.length := by simpa [Spares, hm] using hspares
      have hright : u.flushed ≤ m.length := h.unflushed ▸ Nat.zero_le _
      have hback : Follows base ⟨t.rollback m, marks⟩ ⟨u.rollback m, marks⟩ := by
        refine ⟨⟨h.log.left.rollback m, h.log.right.rollback m, ?_⟩, rfl, ?_⟩
        · rw [rollback_log, rollback_log, Nat.max_eq_left hleft, Nat.max_eq_left hright]
          exact congrArg _ h.log.log
        · exact (rollback_flushed u m).trans h.unflushed
      simpa [Session.act, hm] using hback
  · obtain ⟨hlog, hmarks, -⟩ := stage_congr marks hbase h.log ha hflush
      fun i hi => hrollback ⟨i, hi⟩
    exact ⟨hlog, hmarks, (flushed_act hflush).trans h.unflushed⟩

/-- A sheltered program makes the log that it makes without its flushes. -/
theorem Follows.after (h : Follows base s v) (hbase : Rooted base) {program : List Action}
    (hplain : ∀ a ∈ program, a.Plain) (hshelter : s.Sheltered program = true) :
    Follows base (s.after program) (v.after (program.filter (· ≠ .flush))) := by
  induction program generalizing s v with
  | nil => exact h
  | cons a rest ih =>
    obtain ⟨hspares, hshelter⟩ : s.Spares a = true ∧ (s.act a).1.Sheltered rest = true := by
      simpa [Sheltered] using hshelter
    have hrest : ∀ b ∈ rest, b.Plain := fun b hb => hplain b (List.mem_cons_of_mem _ hb)
    by_cases hflush : a = .flush
    · subst hflush
      exact ih (h.flush hbase) hrest hshelter
    · rw [List.filter_cons_of_pos (by simpa using hflush)]
      exact ih (h.act hbase (hplain a List.mem_cons_self) hflush hspares) hrest hshelter

end Session

/-- After any program on plain paths the disk is the initial one with the flushed
operations carried out, and the view is the initial disk with the whole log carried out.
So a flush that succeeds makes disk and view equal, and where flushes are placed does not
matter for where the last one ends up if no rollback goes back behind one of them.  After
a flush that failed and a rollback the operations before the mark that were not carried
out are pending; if there are none, disk and view are equal. -/
theorem log_decides_disk_and_view (d : Disk) (hd : d.Rooted) (program : List Action)
    (hplain : ∀ a ∈ program, a.Plain) :
    let t := ((Session.start (some d)).after program).staging
    (∃ e, t.disk = some e ∧ ∀ l : Location, l.Plain →
      e.file? l = d.carried (t.log.take t.flushed) l ∧
        t.read l = reading l (d.carried t.log l) ∧ t.exists_ l = (d.carried t.log l).isSome) ∧
    (t.flush.2.isOk = true → t.flush.1.Synced) ∧
    (∀ other, (∀ a ∈ other, a.Plain) →
      other.filter (· ≠ .flush) = program.filter (· ≠ .flush) →
      (Session.start (some d)).Sheltered program = true →
      (Session.start (some d)).Sheltered other = true →
      let u := ((Session.start (some d)).after other).staging
      u.log = t.log ∧ u.flush.1.disk = t.flush.1.disk ∧ u.flush.2.isOk = t.flush.2.isOk) ∧
    (t.flush.2.isOk = false → ∀ m, let v := t.flush.1.rollback m
      (v.pending = true ↔ v.flushed < m.length) ∧ (v.flushed ≥ m.length → v.Synced)) := by
  intro t
  have hbase : Rooted (some d) := fun d' hd' => Option.some.inj hd' ▸ hd
  have hfresh := sound_fresh (some d)
  have ht : t.Sound (some d) := Session.sound_after hbase hfresh hplain
  obtain ⟨e, he, hall⟩ := ht.disk_some
  obtain ⟨e', k, hflush, hstops, hok⟩ := ht.flush_spec hd
  refine ⟨⟨e, he, fun l hl => ⟨?_, ht.read_eq hbase hl, ht.exists_eq hbase hl⟩⟩,
    fun hsucceeds => ?_, fun other hother hsame hshelter hshelter' => ?_, fun hfails m => ?_⟩
  · exact Disk.file?_of_performAll hd (fun op hop => ht.plain op (List.mem_of_mem_take hop))
      (Disk.truthful_take ht.truthful _) hall hl
  · refine (ht.flush hbase).synced hd ?_
    rw [hflush, pending, hok.mp hsucceeds]
    simp
  · have hstart : Session.Follows (some d) (Session.start (some d)) (Session.start (some d)) :=
      ⟨⟨hfresh, hfresh, rfl⟩, rfl, rfl⟩
    have hthis := hstart.after hbase hplain hshelter
    have hthat := hstart.after hbase hother hshelter'
    rw [hsame] at hthat
    have hlog : t.log = ((Session.start (some d)).after other).staging.log :=
      hthis.log.log.trans hthat.log.log.symm
    have hboth : SameLog (some d) t ((Session.start (some d)).after other).staging :=
      ⟨ht, hthat.log.left, hlog⟩
    exact ⟨hlog.symm, hboth.flush_disk hd⟩
  · have hv : (t.flush.1.rollback m).Sound (some d) := (ht.flush hbase).rollback m
    have hflushed : (t.flush.1.rollback m).flushed = k := by rw [rollback_flushed, hflush]
    have hlog : (t.flush.1.rollback m).log = t.log.take (max m.length k) := by
      rw [rollback_log, hflush]
    have hlt : k < t.log.length := by
      refine Nat.lt_of_le_of_ne hstops.le fun heq => ?_
      rw [hok.mpr heq] at hfails
      cases hfails
    have hpending : (t.flush.1.rollback m).pending = true ↔ k < m.length := by
      rw [pending, hflushed, hlog, decide_eq_true_iff, List.length_take]
      omega
    dsimp only
    rw [hflushed]
    exact ⟨hpending, fun hle => hv.synced hd (by
      rw [← Bool.not_eq_true, hpending]
      omega)⟩

/-- The same errands without the flush in between. -/
def errandsAtOnce : List Action :=
  [.rename ⟨"a/w.js"⟩ ⟨"a/v.js"⟩, .write ⟨"a/w.js"⟩ "new", .mark, .write ⟨"bin"⟩ "text",
    .write ⟨"n.js"⟩ "draft", .rollback 0, .write ⟨"a"⟩ "blocked", .flush]

theorem log_decides_disk_and_view_errands :
    let t := ((Session.start (some workshop)).after errands).staging
    let u := ((Session.start (some workshop)).after errandsAtOnce).staging
    t.flush.2.isOk = false ∧ t.flush.1.pending = true ∧ (t.flush.1.rollback ⟨2⟩).Synced ∧
      u.flush.1.disk = t.flush.1.disk ∧
      t.read [.name "a", .name "v.js"] = .ok "old" := by
  intro t u
  obtain ⟨⟨_, -, hpaths⟩, -, hplaces, hback⟩ :=
    log_decides_disk_and_view workshop (rooted_workshop workshop rfl) errands plain_errands
  have hfails : t.flush.2.isOk = false := by decide
  have hplain : ∀ a ∈ errandsAtOnce, a.Plain := fun a ha =>
    plain_errands a ((by decide : errandsAtOnce ⊆ errands) ha)
  have hcarried : workshop.carried t.log [.name "a", .name "v.js"] = some (.text "old") := by
    decide
  refine ⟨hfails, by decide, (hback hfails ⟨2⟩).2 (by decide), ?_, ?_⟩
  · exact (hplaces errandsAtOnce hplain (by decide) (by decide) (by decide)).2.1
  · rw [(hpaths [.name "a", .name "v.js"] ⟨["a", "v.js"], rfl⟩).2.1, hcarried]
    rfl

/-- Going back behind a flush, the flush shows: the file that it wrote stays.  And going
back to a mark leaves pending what was staged before the mark, even if a flush since then
has failed. -/
theorem rollback_tells_flushes :
    let early : List Action := [.mark, .write ⟨"n.js"⟩ "draft", .flush, .rollback 0, .flush]
    let late : List Action := [.mark, .write ⟨"n.js"⟩ "draft", .rollback 0, .flush]
    let blocked : List Action := [.write ⟨"a"⟩ "blocked", .mark, .flush, .rollback 0]
    early.filter (· ≠ .flush) = late.filter (· ≠ .flush) ∧
      ((Session.start (some workshop)).after early).staging.pending = false ∧
      ((Session.start (some workshop)).after late).staging.pending = false ∧
      ((Session.start (some workshop)).after early).staging.disk.map
        (·.file? [.name "n.js"]) = some (some (.text "draft")) ∧
      ((Session.start (some workshop)).after late).staging.disk.map
        (·.file? [.name "n.js"]) = some none ∧
      ((Session.start (some workshop)).after (blocked.take 2)).staging.flush.2.isOk = false ∧
      ((Session.start (some workshop)).after blocked).staging.pending = true := by
  decide

end Retarget.Staging
