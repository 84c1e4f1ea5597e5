import Retarget.Proofs.Json.Distinct
import Retarget.Proofs.Json.Equality
import Retarget.Proofs.Workspace.Documents

/-!
# Editing the targets of a project

A project is read from a document, its targets are set and removed, and the document is
written again.  `Project.Holds` is what carries a document through this: the project keeps
all of it, but for the targets, whose place it keeps.  So the text that is written differs
from the one that was read in its targets, and in a name if it had none
(`Project.edited_document`), and from it the same project is read.
-/

namespace Retarget.Project

variable {p q again : Project} {path : Path} {text : String} {d : Members}
  {ts : OrderedMap String Target}

/-- A change to the targets of a project. -/
inductive Edit where
  | set (name : String) (t : Target)
  | remove (name : String)

/-- A project with one of its targets changed. -/
def edit (p : Project) : Edit → Project
  | .set name t => p.setTarget name t
  | .remove name => p.removeTarget name

/-- A project after a number of changes to its targets. -/
def edited (p : Project) (edits : List Edit) : Project :=
  edits.foldl edit p

/-- Targets as a document holds them: each name with the whole object. -/
def targetsValue (ts : OrderedMap String Target) : Json :=
  .object (ts.map fun t => (t.1, .object t.2.fields))

/-- A document with other targets: in the place of the old ones, or at the end if it had
none and there are some. -/
def withTargets (d : Members) (ts : OrderedMap String Target) : Members :=
  if d.has "targets" then
    d.map fun x => if x.1 = "targets" then ("targets", targetsValue ts) else x
  else if ts = [] then d
  else d ++ [("targets", targetsValue ts)]

/-- A document with the targets of a project, and with its name at the end if it had
none. -/
def revised (d : Members) (p : Project) : Members :=
  withTargets d p.targets ++ if d.has "name" then [] else [("name", .string p.name)]

theorem retargeted_edited (p : Project) (edits : List Edit) : p.Retargeted (p.edited edits) := by
  induction edits generalizing p with
  | nil => exact .refl p
  | cons e edits ih =>
    have hedit : p.Retargeted (p.edit e) := by
      cases e with
      | set name t => exact p.retargeted_setTarget name t
      | remove name => exact p.retargeted_removeTarget name
    exact hedit.trans (ih _)

/-! ## What a project keeps of its document -/

/-- A project keeps a document as it is, or with its targets taken out. -/
def Holds (p : Project) (d : Members) : Prop :=
  p.document = d ∨ d.has "targets" = true ∧ p.document = d.insert "targets" .null

theorem Holds.retargeted (h : p.Holds d) (hq : p.Retargeted q) : q.Holds d := by
  obtain ⟨ts, rfl⟩ := hq
  exact h

/-- A project that was read holds a document with its targets. -/
theorem exists_document (h : ofText path text = .ok p) :
    ∃ d, Json.ofText text = .ok (.object d) ∧ HasTargets d p.targets ∧ p.Holds d := by
  obtain ⟨j, hj, h⟩ := ok_of_bind h
  split at h
  · next d =>
    dsimp only at h
    split at h
    · cases h
    · split at h
      · next hnone =>
        cases h
        exact ⟨d, hj, .inl ⟨.inl hnone, rfl⟩, .inl rfl⟩
      · next hnull =>
        cases h
        exact ⟨d, hj, .inl ⟨.inr hnull, rfl⟩, .inl rfl⟩
      · next fields hfields =>
        obtain ⟨ts, hts, h⟩ := ok_of_bind h
        cases h
        exact ⟨d, hj, .inr ⟨fields, hfields, hts⟩, .inr ⟨by simp [OrderedMap.has, hfields], rfl⟩⟩
      · cases h
  · cases h

theorem targetsJson_eq (p : Project) : p.targetsJson = targetsValue p.targets :=
  rfl

/-- The targets that were taken out come back to their place. -/
theorem Holds.targeted_eq (h : p.Holds d) :
    p.targeted =
      if p.targets.isEmpty && !d.has "targets" then d else d.insert "targets" p.targetsJson := by
  unfold targeted
  rcases h with hd | ⟨hhas, hd⟩
  · rw [hd]
  · rw [hd, OrderedMap.has_insert, OrderedMap.insert_insert]
    simp [hhas]

theorem Holds.targeted_withTargets (h : p.Holds d) (hd : d.keys.Nodup) :
    p.targeted = withTargets d p.targets := by
  rw [h.targeted_eq]
  by_cases hhas : d.has "targets" = true
  · rw [withTargets, if_pos hhas, if_neg (by simp [hhas]),
      OrderedMap.insert_eq_map hd (OrderedMap.has_iff_mem_keys.mp hhas), targetsJson_eq]
  · rw [withTargets, if_neg hhas]
    by_cases hts : p.targets = []
    · simp [hts, hhas]
    · rw [if_neg hts, if_neg (by simp [hts]),
        OrderedMap.insert_of_not_mem (fun hk => hhas (OrderedMap.has_iff_mem_keys.mpr hk)),
        targetsJson_eq]

/-- What is written is the document with the current targets. -/
theorem Holds.toDocument_eq (h : p.Holds d) (hd : d.keys.Nodup) :
    p.toDocument = revised d p := by
  have hname : p.targeted.has "name" = d.has "name" := by
    rw [h.targeted_eq]
    split
    · rfl
    · simp [OrderedMap.has_insert]
  rw [Project.toDocument_eq, revised, ← h.targeted_withTargets hd, hname]
  by_cases hhas : d.has "name" = true
  · simp [hhas]
  · rw [if_neg hhas, if_neg hhas]
    apply OrderedMap.insert_of_not_mem
    rw [← OrderedMap.has_iff_mem_keys, hname]
    exact hhas

/-! ## Reading what was written -/

/-- A project that holds what another one writes, with the same targets, writes the
same. -/
theorem Holds.toDocument_again (h : again.Holds p.toDocument)
    (htargets : again.targets = p.targets) : again.toDocument = p.toDocument := by
  have hsame : again.targeted = p.toDocument := by
    rw [h.targeted_eq, htargets, targetsJson_eq, htargets]
    split
    · rfl
    · next hsome =>
      apply OrderedMap.insert_of_get?
      rw [get?_toDocument_of_ne (by decide), targeted]
      split
      · next hnone =>
        obtain ⟨hempty, hnew⟩ := Bool.and_eq_true_iff.mp hnone
        have habsent : p.toDocument.has "targets" = false := by
          rw [OrderedMap.has, get?_toDocument_of_ne (by decide), targeted, if_pos hnone]
          simpa [OrderedMap.has] using hnew
        exact absurd (by simp [hempty, habsent]) hsome
      · rw [OrderedMap.get?_insert_self, targetsJson_eq]
  have hnamed : p.toDocument.has "name" = true := by
    rw [Project.toDocument_eq]
    split
    · assumption
    · simp [OrderedMap.has_insert]
  rw [Project.toDocument_eq again, hsame, if_pos hnamed]

/-- A document survives edits to the targets of its project.  What is written is the
document that was read with the current targets in their place, and with the name at the
end if it had none.  If that reads back as it was written, it gives the same name, root
and targets, and the same text once more. -/
theorem edited_document (h : ofText path text = .ok p) (edits : List Edit) :
    ∃ d, Json.ofText text = .ok (.object d) ∧ HasTargets d p.targets ∧
      (p.edited edits).toText = (Json.object (revised d (p.edited edits))).pretty ++ "\n" ∧
      (Json.ofText (p.edited edits).toText = .ok (.object (revised d (p.edited edits))) →
        ∃ again, ofText path (p.edited edits).toText = .ok again ∧
          again.name = p.name ∧ again.root = p.root ∧
          again.targets = (p.edited edits).targets ∧
          again.toText = (p.edited edits).toText) := by
  obtain ⟨d, hd, hts, hholds⟩ := exists_document h
  have hretargeted := retargeted_edited p edits
  have hdocument := (hholds.retargeted hretargeted).toDocument_eq
    (Json.distinct_of_ofText hd).keys
  refine ⟨d, hd, hts, ?_, fun hjson => ?_⟩
  · rw [toText, hdocument]
  · rw [← hdocument] at hjson
    have hfaithful := hretargeted.faithful (faithful_of_ofText h)
    obtain ⟨again, hagain, houtline⟩ := ofText_toText hfaithful hjson
    obtain ⟨d', hd', -, hholds'⟩ := exists_document hagain
    obtain rfl : (p.edited edits).toDocument = d' := by
      simpa using hjson.symm.trans hd'
    obtain ⟨hname, hroot, -, htargets⟩ := by simpa only [outline, Prod.mk.injEq] using houtline
    refine ⟨again, ?_, hname.trans hretargeted.name_eq, ?_, htargets, ?_⟩
    · rw [← configPath_of_ofText h, ← hretargeted.configPath_eq]
      exact hagain
    · rw [hroot, hretargeted.root_eq]
    · rw [toText, toText, hholds'.toDocument_again htargets]

/-- A document without a name and with no targets yet. -/
def bare : Members :=
  [("tags", .array [.number (.whole 1)]), ("targets", .null), ("root", .string "apps/web")]

/-- Two targets set, and the first one removed. -/
def replaced : List Edit :=
  [.set "build" (.ofExecutor "webpack"), .set "test" (.ofExecutor "jest"), .remove "build"]

/-- The project that `bare` holds. -/
def unnamed : Project :=
  ⟨"web", ⟨"apps/web"⟩, ⟨"web/project.json"⟩, [], bare⟩

example : revised bare (unnamed.edited replaced) =
    [("tags", .array [.number (.whole 1)]),
      ("targets", .object [("test", .object [("executor", .string "jest")])]),
      ("root", .string "apps/web"), ("name", .string "web")] := by
  decide +kernel

theorem edited_document_unnamed :
    ofText ⟨"web/project.json"⟩ (Json.object bare).compact = .ok unnamed ∧
      ∃ again, ofText ⟨"web/project.json"⟩ (unnamed.edited replaced).toText = .ok again ∧
        again.name = "web" ∧ again.root = ⟨"apps/web"⟩ ∧
        again.targets = [("test", .ofExecutor "jest")] ∧
        again.toText = (unnamed.edited replaced).toText := by
  have hbare : Json.ofText (Json.object bare).compact = .ok (.object bare) := rfl
  have hread : ofText ⟨"web/project.json"⟩ (Json.object bare).compact = .ok unnamed := rfl
  obtain ⟨d, hd, -, -, hagain⟩ := edited_document hread replaced
  obtain rfl : bare = d := by simpa using hbare.symm.trans hd
  exact ⟨hread, hagain (by decide +kernel)⟩

end Retarget.Project
