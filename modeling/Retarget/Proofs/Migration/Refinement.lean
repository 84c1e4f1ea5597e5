import Retarget.Proofs.Migration.RunAccount

/-!
# A run refines the transformation of targets

A run strips targets unit by unit and tidies them at the end of the work on their
project.  What it leaves of a target is what `Reduction.transform` makes of the target
at once, and it tells what `Reduction.transform` tells.
-/

namespace Retarget.Migration

variable {m : Migration} {p : Project} {t : Staging} {w : Workspace} {report : Report}
  {fmt : Option Formatter}

/-- Targets are migrated in projects in scope that hold them. -/
theorem bound_of_mem_migratedTargets (hw : w.Named) (hp : p ∈ w.projects) {n : String}
    (h : n ∈ m.migratedTargets t w p.name) :
    p ∈ w.inScope m.project ∧ n ∈ (m.bound p).map Prod.fst := by
  have steps (s : State) (ps : List Project)
      (hkeys : ∀ q ∈ ps, (OrderedMap.keys q.targets).Nodup)
      (h : n ∈ m.stepsTargets s ps p.name) :
      ∃ q ∈ ps, q.name = p.name ∧ n ∈ (m.bound q).map Prod.fst := by
    induction ps generalizing s with
    | nil => cases h
    | cons q ps ih =>
      rw [stepsTargets] at h
      split at h
      · next hname =>
        have hadds := adds_step m s (hkeys q List.mem_cons_self)
        exact ⟨q, List.mem_cons_self, hname.symm, hadds.among n h⟩
      · obtain ⟨r, hr, hrest⟩ := ih _ (fun r hr => hkeys r (List.mem_cons_of_mem _ hr)) h
        exact ⟨r, List.mem_cons_of_mem _ hr, hrest⟩
  obtain ⟨q, hq, hname, hn⟩ := steps _ _ (hw.inScope m.project) h
  -- there is one project of that name
  have hsame : q = p :=
    List.inj_on_of_nodup_map hw.projects (Workspace.mem_of_mem_inScope hq) hp hname
  rw [hsame] at hq hn
  exact ⟨hq, hn⟩

/-- A project is reported as migrated if targets of it were migrated. -/
theorem migrated_runWith_iff (hw : w.Named) (hp : p ∈ w.projects)
    (h : (m.runWith fmt t w).result = .ok report) :
    report.Migrated p.name ↔ m.migratedTargets t w p.name ≠ [] := by
  obtain ⟨later, lines, rfl⟩ := report_runWith h
  have hbegin (name : String) : ¬(m.begin t w).report.Migrated name := by
    rintro ⟨units, config, hentry⟩
    cases hentry
  by_cases hscope : p ∈ w.inScope m.project
  · exact migrated_foldl_iff (Workspace.nodup_inScope hw.projects m.project)
      (hw.inScope m.project) (fun q _ => hbegin q.name) hscope
  · have hothers : ∀ q ∈ w.inScope m.project, q.name ≠ p.name := fun q hq hname =>
      hscope (Workspace.mem_inScope_of_name hp hq hname)
    have hnone : m.migratedTargets t w p.name = [] := stepsTargets_of_ne hothers
    constructor
    · intro hmigrated
      exact absurd ((migrated_foldl_of_ne hothers).mp hmigrated) (hbegin p.name)
    · intro hmoved
      exact absurd hnone hmoved

/-- What a run that succeeds leaves of the projects of a workspace. -/
theorem workspace_runWith (hw : w.Named) (h : (m.runWith fmt t w).result = .ok report) :
    (m.runWith fmt t w).workspace.projects =
      w.projects.map fun p => m.reworked (m.migratedTargets t w p.name) p := by
  rw [(runWith_of_ok h rfl).2.1]
  exact workspace_foldl (s := m.begin t w) (Workspace.nodup_inScope hw.projects m.project)
    (hw.inScope m.project) hw.projects fun q hq => Workspace.mem_of_mem_inScope hq

/-- A migration of the preview targets of a workspace. -/
def unpreview : Migration :=
  ⟨.vitePreview, none, false⟩

/-- A preview target with a proxy and a configuration of its own. -/
def preview : Target :=
  ((Target.ofExecutor "@nx/vite:preview-server").withOption "proxyConfig"
    (.string "proxy.json")).setConfiguration "ci" [("buildTarget", .string "a:build"),
      ("open", .bool false)]

/-- A project with a preview target and another one. -/
def previewed : Project :=
  ((Project.ofRoot "a" ⟨"a"⟩).setTarget "preview" preview).setTarget "test"
    (Target.ofExecutor "jest")

example : (unpreview.remains ("preview", preview)).map (fun x => x.2.toJson.compact) =
    some "\x7b\"configurations\":\x7b\"ci\":\x7b\"open\":false\x7d\x7d\x7d" := by
  decide +kernel

end Retarget.Migration
