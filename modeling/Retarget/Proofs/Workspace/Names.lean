import Mathlib.Data.List.Nodup
import Retarget.Workspace

/-!
# Projects under different names

Workspaces look projects up by name.  In a workspace whose projects have different
names a name leads to its project, and to say something about a project is to say it
about a name.
-/

namespace Retarget

variable {w : Workspace} {p q : Project} {name : String}

/-- Where names differ, the other projects have other names. -/
theorem name_ne_of_nodup (before after : List Project)
    (h : ((before ++ p :: after).map Project.name).Nodup) :
    ∀ q ∈ before ++ after, q.name ≠ p.name := by
  rw [List.map_append, List.map_cons] at h
  obtain ⟨-, hafter, hapart⟩ := List.nodup_append.mp h
  intro q hq heq
  rcases List.mem_append.mp hq with hq | hq
  · exact hapart q.name (List.mem_map_of_mem hq) p.name List.mem_cons_self heq
  · exact (List.nodup_cons.mp hafter).1 (heq ▸ List.mem_map_of_mem hq)

/-- A name that nothing has leads to nothing. -/
theorem find?_of_not_mem {α : Type} {k : α → String} {xs : List α} {n : String}
    (h : n ∉ xs.map k) : xs.find? (fun y => k y = n) = none := by
  rw [List.find?_eq_none]
  intro y hy hkey
  exact h (List.mem_map.mpr ⟨y, hy, by simpa using hkey⟩)

/-- A name that only one thing has leads to it. -/
theorem find?_of_nodup {α : Type} {k : α → String} {xs : List α} {x : α}
    (h : (xs.map k).Nodup) (hx : x ∈ xs) : xs.find? (fun y => k y = k x) = some x := by
  obtain ⟨before, after, rfl⟩ := List.append_of_mem hx
  rw [List.map_append, List.map_cons] at h
  have hbefore : k x ∉ before.map k := fun hmem =>
    (List.nodup_append.mp h).2.2 _ hmem _ List.mem_cons_self rfl
  rw [List.find?_append, find?_of_not_mem hbefore]
  simp

/-- The order of things under different names does not matter for looking them up. -/
theorem find?_of_perm {α : Type} {k : α → String} {xs ys : List α} (hperm : ys.Perm xs)
    (h : (xs.map k).Nodup) (n : String) :
    ys.find? (fun y => k y = n) = xs.find? fun y => k y = n := by
  have hys : (ys.map k).Nodup := (hperm.map k).nodup_iff.mpr h
  by_cases hn : ∃ x ∈ xs, k x = n
  · obtain ⟨x, hx, rfl⟩ := hn
    rw [find?_of_nodup h hx, find?_of_nodup hys (hperm.mem_iff.mpr hx)]
  · have hxs : n ∉ xs.map k := fun hmem => hn (List.mem_map.mp hmem)
    rw [find?_of_not_mem hxs, find?_of_not_mem fun hmem => hxs ((hperm.map k).mem_iff.mp hmem)]

namespace Workspace

/-- The project of a name that only one project has. -/
theorem project?_of_mem (hnames : (w.projects.map Project.name).Nodup) (hq : q ∈ w.projects) :
    w.project? q.name = some q :=
  find?_of_nodup hnames hq

/-- A project that was put into a workspace is there. -/
theorem project?_put_self (w : Workspace) (q : Project) : (w.put q).project? q.name = some q := by
  have replaced (ps : List Project) (h : ps.any (fun r => r.name = q.name) = true) :
      (ps.map fun r => if r.name = q.name then q else r).find? (fun r => r.name = q.name) =
        some q := by
    induction ps with
    | nil => simp at h
    | cons r ps ih =>
      by_cases hr : r.name = q.name
      · simp [hr]
      · rw [List.map_cons, if_neg hr, List.find?_cons]
        simp only [hr, decide_false]
        exact ih (by simpa [hr] using h)
  simp only [put, place, project?]
  split
  · next h => exact replaced w.projects h
  · next h =>
    have hnone : w.projects.find? (fun r => r.name = q.name) = none := by
      rw [List.find?_eq_none]
      simpa using h
    simp [List.find?_append, hnone]

/-- Another project stays in its place. -/
theorem project?_put (h : q.name ≠ name) : (w.put q).project? name = w.project? name := by
  have replaced (ps : List Project) :
      (ps.map fun r => if r.name = q.name then q else r).find? (fun r => r.name = name) =
        ps.find? fun r => r.name = name := by
    induction ps with
    | nil => rfl
    | cons r ps ih =>
      rw [List.map_cons, List.find?_cons, List.find?_cons, ih]
      by_cases hr : r.name = q.name
      · simp [hr, h]
      · simp [hr]
  simp only [put, place, project?]
  split
  · exact replaced w.projects
  · rw [List.find?_append]
    simp [h]

/-! ## Projects in scope -/

theorem inScope_none (w : Workspace) : w.inScope none = w.projects := by
  simp [inScope]

/-- A project that is not there leaves nothing in scope. -/
theorem inScope_of_project?_eq_none (h : w.project? name = none) :
    w.inScope (some name) = [] := by
  unfold project? at h
  unfold inScope
  rw [List.find?_eq_none] at h
  rw [List.filter_eq_nil_iff]
  simpa using h

theorem mem_of_mem_inScope {filter : Option String} (h : p ∈ w.inScope filter) :
    p ∈ w.projects :=
  (List.mem_filter.mp h).1

/-- A name decides whether a project is in scope. -/
theorem mem_inScope_of_name {filter : Option String} (hp : p ∈ w.projects)
    (hq : q ∈ w.inScope filter) (h : q.name = p.name) : p ∈ w.inScope filter := by
  have hfilter := (List.mem_filter.mp hq).2
  refine List.mem_filter.mpr ⟨hp, ?_⟩
  rwa [h] at hfilter

theorem nodup_inScope (hnames : (w.projects.map Project.name).Nodup) (filter : Option String) :
    ((w.inScope filter).map Project.name).Nodup :=
  hnames.sublist (List.filter_sublist.map _)

/-- Projects have names of their own, and so have the targets of each. -/
structure Named (w : Workspace) : Prop where
  projects : (w.projects.map Project.name).Nodup
  targets : ∀ p ∈ w.projects, (OrderedMap.keys p.targets).Nodup

theorem Named.inScope (hw : w.Named) (filter : Option String) :
    ∀ p ∈ w.inScope filter, (OrderedMap.keys p.targets).Nodup := fun p hp =>
  hw.targets p (mem_of_mem_inScope hp)

end Workspace

end Retarget
