import Retarget.Proofs.Json.Equality
import Retarget.Proofs.Migration.Preservation
import Retarget.Proofs.Path.Extension
import Retarget.Proofs.Staging.Quiet
import Retarget.Proofs.Workspace.Documents

/-!
# What a run leaves on disk is what it leaves in memory

The operations of a project touch files in known languages, and then its own document.  So
no project touches the document of another one, and no document comes or goes.  A document
that is written holds its project with the targets that the work has given it; any other
holds what it held before.  `Stored` says so about one document, and `Persisted` is the
invariant of a run.

Discovering the directory anew therefore finds the documents at the same places, and reads
the projects that the run left in its workspace.
-/

namespace Retarget

namespace Migration

open Workspace Syntax

variable {m : Migration} {p q : Project} {d e : Disk} {t u v : Staging} {w x : Work}
  {s : State} {config : Location} {n : List String} {ops : List Staged}

/-! ## Work on a project -/

/-- Units change targets only. -/
theorem retargeted_migrateUnits {us : List Unit_} (h : m.migrateUnits t w us = (v, .ok x)) :
    w.project.Retargeted x.project := by
  refine migrateUnits_induction (P := fun _ y => w.project.Retargeted y.project) ?_
    (Project.Retargeted.refl _) h
  intro t' y b v' y' hy hb
  rcases migrateUnit_ok hb with ⟨-, hproject, -⟩ | ⟨target, target', -, hproject, -⟩
  · rw [hproject]
    exact hy
  · rw [hproject]
    exact hy.trans (Project.retargeted_setTarget _ _ _)

/-- So does tidying them. -/
theorem retargeted_settle (w : Work) : w.project.Retargeted (settle w) := by
  have single (bases : List String) (p : Project) (name : String) :
      p.Retargeted (settleTarget bases p name) := by
    unfold settleTarget
    split
    · exact .refl p
    · dsimp only
      split
      · split
        · exact p.retargeted_removeTarget _
        · exact p.retargeted_setTarget _ _
      · exact p.retargeted_setTarget _ _
  have all (bases names : List String) (p : Project) :
      p.Retargeted (names.foldl (settleTarget bases) p) := by
    induction names generalizing p with
    | nil => exact .refl p
    | cons name names ih => exact (single bases p name).trans (ih _)
  exact all _ _ _

/-- A config that is replaced is in a known language, and so is its archive. -/
theorem staged_replaceConfig (hc : config.WellSpelled) :
    Staging.Grown Location.InLanguage t (m.replaceConfig t w config).1 := by
  have hgrown := grown_replaceConfig (m := m) (t := t) (w := w) hc
  unfold replaceConfig at hgrown ⊢
  split
  · exact .refl _ t
  · next hnew =>
    rw [if_neg hnew] at hgrown
    split
    · exact .refl _ t
    · next hextract =>
      rw [hextract] at hgrown
      refine hgrown.mono ?_
      obtain ⟨found, hfile, -⟩ := ok_of_bind hextract
      obtain ⟨d, hd, -⟩ := ok_of_bind hfile
      rintro q (rfl | rfl)
      · have hlanguage := inLanguage_of_ofPath hd
        rwa [Location.location_path hc] at hlanguage
      · exact inLanguage_archivePath _ hd

theorem staged_migrateUnit (b : Unit_) :
    Staging.Grown Location.InLanguage t (m.migrateUnit t w b).1 := by
  unfold migrateUnit
  split
  · exact .refl _ t
  · split
    · exact .refl _ t
    · exact .refl _ t
    · split
      · exact .refl _ t
      · exact .refl _ t
    · exact .refl _ t
    · next config hclass =>
      have hgrown := staged_replaceConfig (m := m) (t := t) (w := w)
        (classify_migratable hclass).2.2
      split
      · next hr => simpa only [hr] using hgrown
      · next hr => simpa only [hr] using hgrown

/-- The units of a project touch files in known languages. -/
theorem staged_migrateUnits (us : List Unit_) :
    Staging.Grown Location.InLanguage t (m.migrateUnits t w us).1 := by
  induction us generalizing t w with
  | nil => exact .refl _ t
  | cons b us ih =>
    have hb := staged_migrateUnit (m := m) (t := t) (w := w) b
    unfold migrateUnits
    split
    · next h => simpa only [h] using hb
    · next h =>
      rw [h] at hb
      exact hb.trans ih

/-- A document is in no language. -/
theorem not_touches_of_isDocument (hops : ∀ op ∈ ops, ∀ l ∈ op.paths, Location.InLanguage l)
    (hn : IsDocument n) : ¬∃ op ∈ ops, op.Touches n := by
  rintro ⟨op, hop, l, hl, hplace⟩
  have hname : Project.fileName = String.ofList ("project".toList ++ '.' :: "json".toList) := by
    decide
  unfold IsDocument at hn
  rw [hname] at hn
  exact (hops op hop l hl).not_named hplace (by decide) (by decide) hn

/-- Where files in known languages are rewritten and then a document, no other document is
different. -/
theorem documents_of_saved {e' : Disk} {text : String} (he : e.Rooted)
    (hops : ∀ op ∈ ops, ∀ l ∈ op.paths, Location.InLanguage l)
    (hpath : p.configPath.location = n.map .name) (hn : IsDocument n)
    (hfile : (e.fileAt? n).isSome)
    (h : Staged.performAll e (ops ++ [.write p.configPath.location text]) = .ok e')
    (k : List String) (hk : IsDocument k) :
    e'.fileAt? k = if k = n then some (.text text) else e.fileAt? k := by
  obtain ⟨e₁, hunits, hlast⟩ := Staged.performAll_append h
  obtain ⟨e₂, hsaved, hend⟩ := Staged.performAll_cons_inv hlast
  obtain rfl : e₂ = e' := Except.ok.inj hend
  have hframe := Staged.frame_performAll hunits
  have hrooted := hframe.rooted he
  have hkept : ∀ k, IsDocument k → e₁.fileAt? k = e.fileAt? k :=
    fun k hk => hframe.files k (not_touches_of_isDocument hops hk)
  have hisFile : e₁.isFile p.configPath.location = true := by
    rw [← hkept n hn] at hfile
    obtain ⟨c, hc⟩ := Option.isSome_iff_exists.mp hfile
    rw [hpath]
    exact Disk.isFile_iff.mpr
      ⟨n, c, Disk.find_names hrooted (by simp [Disk.fileAt?_eq_some.mp hc]), hc⟩
  obtain ⟨n', e₃, hfind, hperform, -, -, hfiles⟩ := Disk.perform_write hrooted
    (Path.here_not_mem_location _) hisFile text
  obtain rfl : e₃ = e₂ := Except.ok.inj (hperform.symm.trans hsaved)
  obtain rfl : n' = n := by
    rw [hpath] at hfind
    simpa using Disk.follow_map_name hfind
  rw [hfiles, hkept k hk]

/-! ## What a project leaves -/

/-- What the migration of a project leaves of the documents of a directory. -/
inductive Leaves (m : Migration) (p : Project) (n : List String) (t : Staging) (e : Disk) :
    Staging × Except Failure (Work × List Location) → Disk → Prop
  /-- the project failed -/
  | kept {v : Staging} {f : Failure} {e' : Disk} (quiet : (v.rollback t.mark).Quiet e')
      (documents : ∀ k, IsDocument k → e'.fileAt? k = e.fileAt? k) :
      Leaves m p n t e (v, .error f) e'
  /-- there was nothing to do -/
  | idle {w : Work} (zero : w.migrated = 0) : Leaves m p n t e (t, .ok (w, [])) e
  /-- its document was written -/
  | saved {v : Staging} {w : Work} {written : List Location} {e' : Disk}
      (changed : w.migrated ≠ 0) (retargeted : p.Retargeted w.project) (quiet : v.Quiet e')
      (documents : ∀ k, IsDocument k →
        e'.fileAt? k = if k = n then some (.text w.project.toText) else e.fileAt? k) :
      Leaves m p n t e (v, .ok (w, written)) e'

/-- A project whose document is there leaves the other documents alone. -/
theorem leaves_migrateProject (hwet : m.dryRun = false) (h : t.Quiet e)
    (hpath : p.configPath.location = n.map .name) (hn : IsDocument n)
    (hfile : (e.fileAt? n).isSome) (us : List Unit_) :
    ∃ e', m.Leaves p n t e (m.migrateProject t p us) e' := by
  have hgrown := grown_prepare m t p us
  rw [migrateProject_eq]
  rcases hprepare : m.prepare t p us with ⟨u, f | w⟩
  · rw [hprepare] at hgrown
    exact ⟨e, .kept (h.rollback hgrown) fun _ _ => rfl⟩
  · rw [hprepare] at hgrown
    dsimp only
    rcases prepare_ok hprepare with ⟨hzero, rfl⟩ | ⟨hsome, -, v, x, hunits, rfl, hwrite⟩
    · rw [if_pos (.inl hzero)]
      exact ⟨e, .idle hzero⟩
    · rw [if_neg (by simp [hsome, hwet])]
      have hstaged := staged_migrateUnits (m := m) (t := t) (w := .start p) us
      rw [hunits] at hstaged
      obtain ⟨ops, hops, hlanguage⟩ := hstaged.log
      obtain ⟨hdisk, hflushed, hlog⟩ := Staging.write_ok hwrite
      have hu := (Staging.grown_of_write hwrite).coherent (hstaged.coherent h.coherent)
      rw [hops, List.append_assoc] at hlog
      rcases h.flush hu (hdisk.trans hstaged.disk) (hflushed.trans hstaged.flushed) hlog with
        ⟨e', v', written, hall, hflush, hquiet⟩ | ⟨e', v', f, hflush, hquiet, hframe⟩
      · rw [hflush]
        exact ⟨e', .saved hsome ((retargeted_migrateUnits hunits).trans (retargeted_settle x))
          hquiet (documents_of_saved h.rooted hlanguage hpath hn hfile hall)⟩
      · rw [hflush]
        exact ⟨e', .kept hquiet fun k hk =>
          hframe.files k (not_touches_of_isDocument hlanguage hk)⟩

/-! ## A run -/

/-- A document holds its project as it was read, or as it was written later. -/
def Stored (e : Disk) (x : Document) (q : Project) : Prop :=
  (q = x.project ∧ x.InDisk e) ∨
    x.project.Retargeted q ∧ e.fileAt? x.place = some (.text q.toText)

variable {y z : Document} {xs : List Document} {qs : List Project}

theorem Stored.name_eq (h : Stored e y q) : q.name = y.project.name := by
  rcases h with ⟨rfl, -⟩ | ⟨hretargeted, -⟩
  · rfl
  · exact hretargeted.name_eq

theorem Stored.isSome (h : Stored e y q) : (e.fileAt? y.place).isSome := by
  rcases h with ⟨-, hin⟩ | ⟨-, htext⟩
  · rw [show e.fileAt? y.place = _ from hin]
    rfl
  · rw [htext]
    rfl

theorem Stored.congr {e' : Disk} (h : Stored e y q)
    (hsame : e'.fileAt? y.place = e.fileAt? y.place) : Stored e' y q := by
  rcases h with ⟨rfl, hin⟩ | ⟨hretargeted, htext⟩
  · exact .inl ⟨rfl, hsame.trans hin⟩
  · exact .inr ⟨hretargeted, hsame.trans htext⟩

/-- A place holds one document. -/
theorem project_eq_of_place (hy : y.InDisk d) (hz : z.InDisk d) (h : y.place = z.place) :
    y.project = z.project := by
  obtain ⟨place, text, p, hp⟩ := y
  obtain ⟨place', text', p', hp'⟩ := z
  obtain rfl : place = place' := h
  obtain rfl : text = text' := by
    simpa using Option.some.inj (Eq.trans (Eq.symm hy) hz)
  exact Except.ok.inj (hp.symm.trans hp')

/-- Documents of a directory, as they are found there. -/
structure Found (d : Disk) (xs : List Document) : Prop where
  places : ∀ y ∈ xs, IsDocument y.place
  spelled : ∀ y ∈ xs, Location.WellSpelled (y.place.map .name)
  texts : ∀ y ∈ xs, y.InDisk d
  names : (xs.map fun y => y.project.name).Nodup

theorem Found.eq_of_name (h : Found d xs) (hy : y ∈ xs) (hz : z ∈ xs)
    (hname : y.project.name = z.project.name) : y = z :=
  List.inj_on_of_nodup_map h.names hy hz hname

theorem Found.location (h : Found d xs) (hy : y ∈ xs) :
    y.project.configPath.location = y.place.map .name := by
  rw [Project.configPath_of_ofText y.read, Location.location_path (h.spelled y hy)]

/-- Where a run stands: nothing is pending, the same documents are there as at first, and
they hold the projects of the workspace. -/
structure Persisted (d : Disk) (xs : List Document) (s : State) (e : Disk) : Prop where
  quiet : s.staging.Quiet e
  documents : ∀ k, IsDocument k → ((e.fileAt? k).isSome ↔ (d.fileAt? k).isSome)
  stored : List.Forall₂ (Stored e) xs s.workspace.projects

theorem exists_of_forall₂ {α β : Type} {R : α → β → Prop} {as : List α} {bs : List β} {a : α}
    (h : List.Forall₂ R as bs) (ha : a ∈ as) : ∃ b ∈ bs, R a b := by
  induction h with
  | nil => cases ha
  | cons hr _ ih =>
    rcases List.mem_cons.mp ha with rfl | ha
    · exact ⟨_, List.mem_cons_self, hr⟩
    · obtain ⟨b, hb, hr⟩ := ih ha
      exact ⟨b, List.mem_cons_of_mem _ hb, hr⟩

theorem forall₂_of_mem {α β : Type} {R S : α → β → Prop} {as : List α} {bs : List β}
    (h : List.Forall₂ R as bs) (himp : ∀ a ∈ as, ∀ b, R a b → S a b) :
    List.Forall₂ S as bs := by
  induction h with
  | nil => exact .nil
  | cons hr _ ih =>
    refine .cons (himp _ List.mem_cons_self _ hr) (ih fun a ha => ?_)
    exact himp a (List.mem_cons_of_mem _ ha)

/-- A project that was written takes its place in the workspace. -/
theorem stored_put {e' : Disk} {ws : Workspace} (hxs : Found d xs) (hy : y ∈ xs)
    (hq : Stored e' y q) (h : List.Forall₂ (Stored e) xs ws.projects)
    (hothers : ∀ z ∈ xs, z.place ≠ y.place → e'.fileAt? z.place = e.fileAt? z.place) :
    List.Forall₂ (Stored e') xs (ws.put q).projects := by
  obtain ⟨r, hr, hstored⟩ := exists_of_forall₂ h hy
  have hany : ws.projects.any (fun r => r.name = q.name) = true := by
    rw [List.any_eq_true]
    exact ⟨r, hr, by simp [hstored.name_eq, hq.name_eq]⟩
  simp only [Workspace.put, Workspace.place, hany, if_true]
  rw [List.forall₂_map_right_iff]
  apply forall₂_of_mem h
  intro z hz r hstored
  by_cases hname : r.name = q.name
  · rw [if_pos hname]
    rw [hstored.name_eq, hq.name_eq] at hname
    rwa [hxs.eq_of_name hz hy hname]
  · rw [if_neg hname]
    refine hstored.congr (hothers z hz fun hplace => hname ?_)
    rw [hstored.name_eq, hq.name_eq,
      project_eq_of_place (hxs.texts z hz) (hxs.texts y hy) hplace]

/-- Documents that were left alone are stored as before. -/
theorem Persisted.of_same {e' : Disk} {t' : Staging} {report : Report} (hxs : Found d xs)
    (h : Persisted d xs s e) (hquiet : t'.Quiet e')
    (hsame : ∀ k, IsDocument k → e'.fileAt? k = e.fileAt? k) :
    Persisted d xs ⟨t', s.workspace, report⟩ e' where
  quiet := hquiet
  documents := by
    intro k hk
    rw [hsame k hk]
    exact h.documents k hk
  stored := forall₂_of_mem h.stored fun z hz _ hstored =>
    hstored.congr (hsame _ (hxs.places z hz))

/-- A step of a run keeps workspace and directory together. -/
theorem Persisted.step (hwet : m.dryRun = false) (hxs : Found d xs) (hy : y ∈ xs)
    (h : Persisted d xs s e) : ∃ e', Persisted d xs (m.step s y.project) e' := by
  obtain ⟨r, -, hr⟩ := exists_of_forall₂ h.stored hy
  obtain ⟨e', hleaves⟩ := leaves_migrateProject hwet h.quiet (hxs.location hy)
    (hxs.places y hy) hr.isSome (unitsOfProject m.profile.executor y.project)
  have hstep := stepped_step m s y.project
  generalize m.step s y.project = s' at hstep
  cases hstep with
  | unbound _ => exact ⟨e, h⟩
  | failed hrun =>
    rw [hrun] at hleaves
    cases hleaves with
    | kept quiet documents => exact ⟨e', h.of_same hxs quiet documents⟩
  | idle hrun hzero =>
    rw [hrun] at hleaves
    cases hleaves with
    | idle _ => exact ⟨e, h.of_same hxs h.quiet fun _ _ => rfl⟩
    | saved changed _ _ _ => exact absurd hzero changed
  | migrated hrun hsome =>
    rw [hrun] at hleaves
    cases hleaves with
    | idle hzero => exact absurd hzero hsome
    | saved _ retargeted quiet documents =>
      refine ⟨e', quiet, ?_, ?_⟩
      · intro k hk
        rw [documents k hk, ← h.documents k hk]
        split
        · next hplace => simp [hplace, hr.isSome]
        · exact .rfl
      · refine stored_put hxs hy (.inr ⟨retargeted, ?_⟩) h.stored ?_
        · rw [documents _ (hxs.places y hy), if_pos rfl]
        · intro z hz hplace
          rw [documents _ (hxs.places z hz), if_neg hplace]

theorem Persisted.foldl (hwet : m.dryRun = false) (hxs : Found d xs) {ps : List Project}
    (hps : ∀ p ∈ ps, ∃ y ∈ xs, y.project = p) (h : Persisted d xs s e) :
    ∃ e', Persisted d xs (ps.foldl m.step s) e' := by
  induction ps generalizing s e with
  | nil => exact ⟨e, h⟩
  | cons p ps ih =>
    obtain ⟨y, hy, rfl⟩ := hps p List.mem_cons_self
    obtain ⟨e₁, h₁⟩ := h.step hwet hxs hy
    exact ih (fun q hq => hps q (List.mem_cons_of_mem _ hq)) h₁

/-! ## Discovering again -/

/-- A document that was stored reads as its project. -/
theorem Stored.reread (h : Stored e y q)
    (hjson : Json.ofText q.toText = .ok (.object q.toDocument)) :
    ∃ z : Document, z.place = y.place ∧ z.InDisk e ∧ z.project.outline = q.outline := by
  rcases h with ⟨rfl, hin⟩ | ⟨hretargeted, htext⟩
  · exact ⟨y, rfl, hin, rfl⟩
  · have hfaithful := hretargeted.faithful (Project.faithful_of_ofText y.read)
    obtain ⟨r, hr, houtline⟩ := Project.ofText_toText hfaithful hjson
    rw [hretargeted.configPath_eq, Project.configPath_of_ofText y.read] at hr
    exact ⟨⟨y.place, q.toText, r, hr⟩, rfl, htext, houtline⟩

theorem exists_documents (h : List.Forall₂ (Stored e) xs qs)
    (hjson : ∀ q ∈ qs, Json.ofText q.toText = .ok (.object q.toDocument)) :
    ∃ ys : List Document, ys.map Document.place = xs.map Document.place ∧
      (∀ z ∈ ys, z.InDisk e) ∧
      (ys.map Document.project).map Project.outline = qs.map Project.outline := by
  induction h with
  | nil => exact ⟨[], rfl, by simp, rfl⟩
  | cons hstored _ ih =>
    obtain ⟨z, hplace, hin, houtline⟩ := hstored.reread (hjson _ List.mem_cons_self)
    obtain ⟨ys, hplaces, hins, houtlines⟩ := ih fun q hq => hjson q (List.mem_cons_of_mem _ hq)
    refine ⟨z :: ys, ?_, ?_, ?_⟩
    · rw [List.map_cons, List.map_cons, hplace, hplaces]
    · intro z' hz'
      rcases List.mem_cons.mp hz' with rfl | hz'
      · exact hin
      · exact hins z' hz'
    · simp only [List.map_cons, houtline, houtlines]

theorem names_of_stored (h : List.Forall₂ (Stored e) xs qs) :
    qs.map Project.name = xs.map fun z => z.project.name := by
  induction h with
  | nil => rfl
  | cons hstored _ ih => rw [List.map_cons, List.map_cons, hstored.name_eq, ih]

/-- Where everything is persisted, discovering the directory gives the workspace. -/
theorem Persisted.rediscover (hxs : Found d xs) (hd : d.Rooted) (hdistinct : d.Distinct)
    (hfound : Workspace.documents.collect d [] = .ok (xs.map Document.place))
    (h : Persisted d xs s e)
    (hjson : ∀ q ∈ s.workspace.projects, Json.ofText q.toText = .ok (.object q.toDocument)) :
    ∃ again, discover (.open e) = .ok again ∧
      again.projects.map Project.outline = s.workspace.projects.map Project.outline := by
  obtain ⟨ys, hplaces, hins, houtlines⟩ := exists_documents h.stored hjson
  refine ⟨⟨ys.map Document.project⟩, ?_, houtlines⟩
  rw [discover_iff h.quiet.rooted]
  refine ⟨ys, ?_, hins, rfl, ?_⟩
  · rw [hplaces, ← hfound]
    apply FileQuery.collect_congr [] h.quiet.rooted hd h.quiet.distinct hdistinct
    intro n hn
    exact h.documents n (isDocument_of_wants hn)
  · have hnames := congrArg (List.map Prod.fst) houtlines
    rw [List.map_map, List.map_map (l := s.workspace.projects)] at hnames
    have hnames : (ys.map Document.project).map Project.name =
        s.workspace.projects.map Project.name := hnames
    rw [hnames, names_of_stored h.stored]
    exact hxs.names

/-- The documents of a discovered workspace. -/
theorem exists_found {ws : Workspace} (hd : d.WellFormed)
    (h : discover (.open d) = .ok ws) : ∃ xs, Found d xs ∧
      Workspace.documents.collect d [] = .ok (xs.map Document.place) ∧
      ws.projects = xs.map Document.project := by
  obtain ⟨xs, hfound, htexts, hprojects, hnames⟩ := (discover_iff hd.rooted).mp h
  refine ⟨xs, ⟨?_, ?_, htexts, ?_⟩, hfound, hprojects⟩
  · intro y hy
    have hmem := List.mem_map_of_mem (f := Document.place) hy
    exact isDocument_of_wants (FileQuery.of_mem_collect hd.rooted hfound hmem).1
  · intro y hy
    have hfile := Disk.fileAt?_eq_some.mp (htexts y hy)
    apply hd.wellSpelled
    rw [Disk.isFile_iff]
    exact ⟨_, _, Disk.find_names hd.rooted (by simp [hfile]), htexts y hy⟩
  · rwa [hprojects, List.map_map] at hnames

/-- Discovering a directory after a run that writes gives the projects of the workspace that
the run leaves, in the same order and with the same names, roots, paths and targets. -/
theorem run_persists (m : Migration) (d : Disk) (ws : Workspace) (hd : d.WellFormed)
    (hdistinct : d.Distinct) (hws : discover (.open d) = .ok ws) (hwet : m.dryRun = false)
    (hjson : ∀ p ∈ (m.runWith none (.open d) ws).workspace.projects,
      Json.ofText p.toText = .ok (.object p.toDocument)) :
    ∃ e again, (m.runWith none (.open d) ws).staging.disk = some e ∧
      discover (.open e) = .ok again ∧
      again.projects.map Project.outline =
        (m.runWith none (.open d) ws).workspace.projects.map Project.outline := by
  obtain ⟨xs, hxs, hfound, hprojects⟩ := exists_found hd hws
  have hbegin : Persisted d xs (m.begin (.open d) ws) d := by
    refine ⟨Staging.quiet_open hd.rooted hdistinct, fun _ _ => .rfl, ?_⟩
    simp only [begin, hprojects]
    rw [List.forall₂_map_right_iff, List.forall₂_same]
    exact fun y hy => .inl ⟨rfl, hxs.texts y hy⟩
  obtain ⟨s, e, hpersisted, hstaging, hworkspace⟩ : ∃ s e, Persisted d xs s e ∧
      (m.run (.open d) ws).staging = s.staging ∧
      (m.run (.open d) ws).workspace = s.workspace := by
    rcases run_cases m (.open d) ws with ⟨name, -, -, hrun⟩ | hrun
    · rw [hrun]
      exact ⟨_, d, hbegin, rfl, rfl⟩
    · have hscope : ∀ p ∈ ws.inScope m.project, ∃ y ∈ xs, y.project = p := by
        intro p hp
        have hmem := mem_of_mem_inScope hp
        rw [hprojects] at hmem
        exact List.mem_map.mp hmem
      obtain ⟨e, hend⟩ := hbegin.foldl hwet hxs hscope
      rw [hrun, finish_eq]
      exact ⟨_, e, hend, rfl, rfl⟩
  unfold runWith at hjson ⊢
  dsimp only at hjson ⊢
  rw [hworkspace] at hjson
  obtain ⟨again, hagain, houtline⟩ :=
    hpersisted.rediscover hxs hd.rooted hdistinct hfound hjson
  rw [hstaging, hworkspace]
  exact ⟨e, again, hpersisted.quiet.disk, hagain, houtline⟩

/-- The document of a project with one target that `retire` migrates. -/
def retiredOnce (config : String) : String :=
  "\x7b\"targets\":\x7b\"build\":\x7b\"executor\":\"build\",\"options\":\x7b\"config\":\"" ++
    config ++ "\"\x7d\x7d\x7d\x7d"

/-- A directory with a project that is migrated and one whose old config is in no known
language. -/
def partly : Disk :=
  ⟨[(["a"], .folder), (["a", "project.json"], .file (.text (retiredOnce "a/w.js"))),
    (["a", "w.js"], .file (.text "")), (["b"], .folder),
    (["b", "project.json"], .file (.text (retiredOnce "b/w.json"))),
    (["b", "w.json"], .file (.text ""))]⟩

theorem run_persists_partly :
    ∃ e again, (retire.runWith none (.open partly) (.found partly)).staging.disk = some e ∧
      discover (.open e) = .ok again ∧
      again.projects.map Project.outline =
        (retire.runWith none (.open partly) (.found partly)).workspace.projects.map
          Project.outline := by
  have hjson : ∀ p ∈ (retire.runWith none (.open partly) (.found partly)).workspace.projects,
      Json.ofText p.toText = .ok (.object p.toDocument) := by
    decide +kernel
  exact run_persists retire partly (.found partly)
    (Disk.wellFormed_of_entries (by decide +kernel)) (by decide)
    (Workspace.discover_eq_found (by decide +kernel)) rfl hjson

end Migration

end Retarget
