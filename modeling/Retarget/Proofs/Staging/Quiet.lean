import Retarget.Proofs.Disk.Distinct
import Retarget.Proofs.Staging.Restoring

/-!
# Stagings with nothing pending

A staging is quiet over a directory if all that was staged has been carried out there.
Going back behind operations that were staged on top of a quiet staging makes it quiet
again, whether some of them were flushed or not.
-/

namespace Retarget.Staging

variable {d e : Disk} {t u v : Staging} {ops : List Staged} {last : Staged}

/-- Nothing is pending over a directory. -/
structure Quiet (t : Staging) (e : Disk) : Prop where
  coherent : t.Coherent
  disk : t.disk = some e
  flushed : t.flushed = t.log.length
  rooted : e.Rooted
  distinct : e.Distinct

theorem quiet_open (hd : d.Rooted) (hdistinct : d.Distinct) : (Staging.open d).Quiet d :=
  ⟨coherent_open d, rfl, rfl, hd, hdistinct⟩

theorem Quiet.of_agree (h : t.Quiet e) (hagree : u.Agree t) (hu : u.Coherent) : u.Quiet e where
  coherent := hu
  disk := hagree.disk.trans h.disk
  flushed := by rw [hagree.flushed, hagree.log, h.flushed]
  rooted := h.rooted
  distinct := h.distinct

/-- What was staged and not flushed is forgotten. -/
theorem Quiet.rollback {S : Location → Prop} (h : t.Quiet e) (hgrown : Grown S t u) :
    (u.rollback t.mark).Quiet e :=
  h.of_agree (hgrown.rollback h.coherent) ((hgrown.coherent h.coherent).rollback _)

/-- What was staged on top of a quiet staging is carried out, or the flush stops and only
operations before the last one were carried out. -/
theorem Quiet.flush (h : t.Quiet e) (hu : u.Coherent) (hdisk : u.disk = t.disk)
    (hflushed : u.flushed = t.flushed) (hlog : u.log = t.log ++ (ops ++ [last])) :
    (∃ e' v written, Staged.performAll e (ops ++ [last]) = .ok e' ∧
      u.flush = (v, .ok written) ∧ v.Quiet e') ∨
    ∃ e' v f, u.flush = (v, .error f) ∧ (v.rollback t.mark).Quiet e' ∧
      Disk.Frame (fun n => ∃ op ∈ ops, op.Touches n) e e' := by
  have hcoherent := hu.flush
  have hstart : u.flushed = t.log.length := hflushed.trans h.flushed
  have hpending : u.log.drop u.flushed = ops ++ [last] := by
    rw [hstart, hlog, List.drop_left]
  rcases flush_cases (hdisk.trans h.disk) with
    ⟨e', hall, hflush⟩ | ⟨done, op, rest, e₁, e', f, hops, hdone, hfails, hflush⟩
  · rw [hpending] at hall
    rw [hflush] at hcoherent
    have hcount : u.flushed + (ops ++ [last]).length = u.log.length := by
      rw [hstart, hlog, ← List.length_append]
    exact .inl ⟨e', _, _, hall, hflush, hcoherent, rfl, by simpa only [hpending] using hcount,
      (Staged.frame_performAll hall).rooted h.rooted, Staged.distinct_performAll h.distinct hall⟩
  · rw [hpending] at hops
    rw [hflush] at hcoherent
    have hlength : done.length + (rest.length + 1) = ops.length + 1 := by
      have := congrArg List.length hops
      simpa using this.symm
    -- the last operation is not among those that were carried out
    have hbefore : done = ops.take done.length := by
      have := congrArg (List.take done.length) hops
      rw [List.take_left, List.take_append_of_le_length (by omega)] at this
      exact this.symm
    refine .inr ⟨e', _, _, hflush, ⟨hcoherent.rollback _, ?_, ?_, ?_, ?_⟩, ?_⟩
    · rw [rollback_disk]
    · rw [rollback_flushed, rollback_log, List.length_take, hlog, List.length_append,
        List.length_append, List.length_singleton]
      simp only [mark]
      omega
    · exact (Staged.frame_attempt_error hfails).rooted
        ((Staged.frame_performAll hdone).rooted h.rooted)
    · exact Staged.distinct_attempt_error (Staged.distinct_performAll h.distinct hdone) hfails
    · refine ((Staged.frame_performAll hdone).mono ?_).trans
        ((Staged.frame_attempt_error hfails).mono fun _ => False.elim)
      rintro n ⟨op', hop', hn⟩
      rw [hbefore] at hop'
      exact ⟨op', List.mem_of_mem_take hop', hn⟩

end Retarget.Staging
