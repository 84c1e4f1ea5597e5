import Retarget.Proofs.Disk.Listing
import Retarget.Proofs.Staging.Advancing
import Retarget.Proofs.Workspace.Discovery
import Retarget.Proofs.Workspace.Names

/-!
# Documents of a workspace

`Project.ofText_toText` says that the text of a project reads back as the same project: its
name, root, path and targets come back, whichever targets it was given since it was read.

A `Document` is a text at a place of a directory together with the project that it holds.
Discovering a directory is finding such documents for projects of different names, in the
order in which the places are listed (`Workspace.discover_iff`).
-/

namespace Retarget

namespace Project

variable {p q r : Project} {path : Path} {text name : String} {document : Members}
  {ts : OrderedMap String Target}

/-! ## Reading a document back -/

/-- What a project is, the rest of its document aside. -/
def outline (p : Project) : String × Path × Path × OrderedMap String Target :=
  (p.name, p.root, p.configPath, p.targets)

/-- The root that a document at a path speaks of. -/
def rootIn (path : Path) (document : Members) : Path :=
  ((stringField? document "root").map Path.mk).getD (path.parent?.getD ⟨""⟩)

/-- The name that a document at a path speaks of. -/
def nameIn? (path : Path) (document : Members) : Option String :=
  (stringField? document "name") <|> (path.parent?.getD ⟨""⟩).fileName?

/-- A document has these targets, or has none. -/
def HasTargets (document : Members) (ts : OrderedMap String Target) : Prop :=
  ((OrderedMap.get? document "targets" = none ∨
      OrderedMap.get? document "targets" = some .null) ∧ ts = []) ∨
    ∃ fields, OrderedMap.get? document "targets" = some (.object fields) ∧
      readTargets fields = .ok ts

/-- A project has the name and the root that its document speaks of. -/
structure Faithful (p : Project) : Prop where
  name : nameIn? p.configPath p.document = some p.name
  root : rootIn p.configPath p.document = p.root

theorem stringField?_insert {key other : String} (h : key ≠ other) (v : Json) :
    stringField? (OrderedMap.insert document other v) key = stringField? document key := by
  unfold stringField?
  rw [OrderedMap.get?_insert_of_ne v h]

/-- A project that was read is what its document says. -/
theorem faithful_of_ofText (h : ofText path text = .ok p) : p.Faithful := by
  obtain ⟨j, -, h⟩ := ok_of_bind h
  split at h
  · next document =>
    dsimp only at h
    split at h
    · cases h
    · next name hname =>
      split at h
      · cases h
        exact ⟨hname, rfl⟩
      · cases h
        exact ⟨hname, rfl⟩
      · obtain ⟨ts, -, h⟩ := ok_of_bind h
        cases h
        constructor
        · rw [nameIn?, stringField?_insert (by decide)]
          exact hname
        · rw [rootIn, stringField?_insert (by decide)]
      · cases h
  · cases h

/-- A document with a name and targets holds a project. -/
theorem exists_of_document (h : Json.ofText text = .ok (.object document))
    (hname : nameIn? path document = some name) (hts : HasTargets document ts) :
    ∃ p, ofText path text = .ok p ∧ p.outline = (name, rootIn path document, path, ts) := by
  unfold nameIn? at hname
  unfold ofText
  simp only [h, bind, Except.bind, hname]
  rcases hts with ⟨hnone | hnull, rfl⟩ | ⟨fields, hfields, hts⟩
  · rw [hnone]
    exact ⟨_, rfl, rfl⟩
  · rw [hnull]
    exact ⟨_, rfl, rfl⟩
  · simp only [hfields, hts]
    exact ⟨_, rfl, rfl⟩

/-- The document with the current targets, before it is named. -/
def targeted (p : Project) : Members :=
  if p.targets.isEmpty && !p.document.has "targets" then p.document
  else p.document.insert "targets" p.targetsJson

theorem toDocument_eq (p : Project) :
    p.toDocument = if p.targeted.has "name" then p.targeted
      else p.targeted.insert "name" (.string p.name) :=
  rfl

theorem get?_targeted_of_ne {key : String} (h : key ≠ "targets") :
    p.targeted.get? key = p.document.get? key := by
  unfold targeted
  split
  · rfl
  · exact OrderedMap.get?_insert_of_ne _ h

theorem get?_toDocument_of_ne {key : String} (h : key ≠ "name") :
    p.toDocument.get? key = p.targeted.get? key := by
  rw [toDocument_eq]
  split
  · rfl
  · exact OrderedMap.get?_insert_of_ne _ h

theorem readTargets_map (ts : OrderedMap String Target) :
    readTargets (ts.map fun t => (t.1, t.2.toJson)) = .ok ts := by
  induction ts with
  | nil => rfl
  | cons t ts ih =>
    obtain ⟨name, fields⟩ := t
    simp only [Target.toJson] at ih
    simp only [List.map_cons, Target.toJson, readTargets, ih]
    rfl

theorem hasTargets_toDocument (p : Project) : HasTargets p.toDocument p.targets := by
  unfold HasTargets
  rw [get?_toDocument_of_ne (by decide)]
  unfold targeted
  split
  · next h =>
    obtain ⟨hempty, hnew⟩ := Bool.and_eq_true_iff.mp h
    left
    constructor
    · left
      simpa [OrderedMap.has] using hnew
    · exact List.isEmpty_iff.mp hempty
  · right
    exact ⟨_, OrderedMap.get?_insert_self _ _ _, readTargets_map _⟩

theorem Faithful.rootIn_toDocument (h : p.Faithful) :
    rootIn p.configPath p.toDocument = p.root := by
  rw [← h.root, rootIn, rootIn, stringField?, stringField?, get?_toDocument_of_ne (by decide),
    get?_targeted_of_ne (by decide)]

theorem Faithful.nameIn?_toDocument (h : p.Faithful) :
    nameIn? p.configPath p.toDocument = some p.name := by
  unfold nameIn? stringField?
  rw [toDocument_eq]
  split
  · rw [get?_targeted_of_ne (by decide)]
    exact h.name
  · rw [OrderedMap.get?_insert_self]
    rfl

/-- What was written reads back as the same project. -/
theorem ofText_toText (hp : p.Faithful)
    (hjson : Json.ofText p.toText = .ok (.object p.toDocument)) :
    ∃ q, ofText p.configPath p.toText = .ok q ∧ q.outline = p.outline := by
  obtain ⟨q, hq, houtline⟩ :=
    exists_of_document hjson hp.nameIn?_toDocument p.hasTargets_toDocument
  rw [hp.rootIn_toDocument] at houtline
  exact ⟨q, hq, houtline⟩

/-! ## Projects with other targets -/

/-- The same project, but for its targets. -/
def Retargeted (p q : Project) : Prop :=
  ∃ ts, q = { p with targets := ts }

theorem Retargeted.refl (p : Project) : p.Retargeted p :=
  ⟨p.targets, rfl⟩

theorem Retargeted.trans (h : p.Retargeted q) (h' : q.Retargeted r) : p.Retargeted r := by
  obtain ⟨ts, rfl⟩ := h
  obtain ⟨ts', rfl⟩ := h'
  exact ⟨ts', rfl⟩

theorem retargeted_setTarget (p : Project) (name : String) (t : Target) :
    p.Retargeted (p.setTarget name t) :=
  ⟨_, rfl⟩

theorem retargeted_removeTarget (p : Project) (name : String) :
    p.Retargeted (p.removeTarget name) :=
  ⟨_, rfl⟩

theorem Retargeted.name_eq (h : p.Retargeted q) : q.name = p.name := by
  obtain ⟨ts, rfl⟩ := h
  rfl

theorem Retargeted.root_eq (h : p.Retargeted q) : q.root = p.root := by
  obtain ⟨ts, rfl⟩ := h
  rfl

theorem Retargeted.configPath_eq (h : p.Retargeted q) : q.configPath = p.configPath := by
  obtain ⟨ts, rfl⟩ := h
  rfl

/-- The targets have no part in what the rest of the document says. -/
theorem Retargeted.faithful (h : p.Retargeted q) (hp : p.Faithful) : q.Faithful := by
  obtain ⟨ts, rfl⟩ := h
  exact ⟨hp.name, hp.root⟩

end Project

namespace Workspace

/-! ## Discovering documents -/

/-- A text at a place of a directory and the project that it holds. -/
structure Document where
  place : List String
  text : String
  project : Project
  read : Project.ofText (Location.path (place.map .name)) text = .ok project

variable {d : Disk} {v w : Workspace} {names : List String} {x : Document} {xs : List Document}

/-- A document is in a directory. -/
def Document.InDisk (x : Document) (d : Disk) : Prop :=
  d.fileAt? x.place = some (.text x.text)

theorem read_open (hd : d.Rooted) {s : String} :
    (Staging.open d).read (names.map .name) = .ok s ↔ d.fileAt? names = some (.text s) := by
  have hfile (c : Content) : d.file? (names.map .name) = some c ↔ d.fileAt? names = some c := by
    rw [Disk.file?_eq_some]
    constructor
    · rintro ⟨n, hn, hc⟩
      obtain rfl : n = names := by simpa using Disk.follow_map_name hn
      exact hc
    · intro hc
      exact ⟨names, Disk.find_names hd (by simp [Disk.fileAt?_eq_some.mp hc]), hc⟩
  rw [← hfile]
  unfold Staging.read
  rw [show (Staging.open d).overlay.get? (names.map .name) = none from rfl,
    Staging.readDisk_eq (t := .open d) rfl]
  rcases d.file? (names.map .name) with _ | content
  · simp
  · cases content with
    | text _ => simp
    | raw _ => simp

/-- To load a place is to read a document whose project has a new name. -/
theorem load_iff (hd : d.Rooted) :
    load (.open d) v names = .ok w ↔ ∃ x : Document, x.place = names ∧ x.InDisk d ∧
      v.project? x.project.name = none ∧ w = ⟨v.projects ++ [x.project]⟩ := by
  constructor
  · intro h
    obtain ⟨text, htext, h⟩ := ok_of_bind h
    obtain ⟨p, hp, h⟩ := ok_of_bind h
    unfold insert at h
    split at h
    · cases h
    · next hnew =>
      exact ⟨⟨names, text, p, hp⟩, rfl, (read_open hd).mp htext, hnew, (Except.ok.inj h).symm⟩
  · rintro ⟨x, rfl, hx, hnew, rfl⟩
    have hread := (read_open hd).mpr hx
    simp only [load, hread, x.read, bind, Except.bind, insert, hnew]

theorem project?_eq_none_iff {name : String} :
    w.project? name = none ↔ name ∉ w.projects.map Project.name := by
  constructor
  · intro h hmem
    obtain ⟨p, hp, rfl⟩ := List.mem_map.mp hmem
    have := List.find?_eq_none.mp h p hp
    simp at this
  · exact find?_of_not_mem

/-- Loading places one after the other. -/
theorem foldlM_load_iff (hd : d.Rooted) {found : List (List String)}
    (hv : (v.projects.map Project.name).Nodup) :
    found.foldlM (load (.open d)) v = .ok w ↔ ∃ xs : List Document,
      xs.map Document.place = found ∧ (∀ x ∈ xs, x.InDisk d) ∧
      w.projects = v.projects ++ xs.map Document.project ∧
      (w.projects.map Project.name).Nodup := by
  induction found generalizing v with
  | nil =>
    constructor
    · intro h
      obtain rfl : v = w := Except.ok.inj h
      exact ⟨[], rfl, by simp, by simp, hv⟩
    · rintro ⟨xs, hxs, -, hw, -⟩
      obtain rfl := List.map_eq_nil_iff.mp hxs
      have hw : v.projects = w.projects := by simpa using hw.symm
      exact congrArg (fun ps => Except.ok (Workspace.mk ps)) hw
  | cons names found ih =>
    rw [List.foldlM_cons]
    constructor
    · intro h
      obtain ⟨v', hload, h⟩ := ok_of_bind h
      obtain ⟨x, rfl, hx, hnew, rfl⟩ := (load_iff hd).mp hload
      have hv' : ((v.projects ++ [x.project]).map Project.name).Nodup := by
        rw [List.map_append]
        refine hv.append (List.nodup_singleton _) ?_
        rw [List.map_singleton, List.disjoint_singleton]
        exact project?_eq_none_iff.mp hnew
      obtain ⟨xs, rfl, hxs, hw, hnodup⟩ := (ih hv').mp h
      refine ⟨x :: xs, rfl, ?_, ?_, hnodup⟩
      · intro y hy
        rcases List.mem_cons.mp hy with rfl | hy
        · exact hx
        · exact hxs y hy
      · rw [hw, List.append_assoc]
        rfl
    · rintro ⟨xs, hxs, hin, hw, hnodup⟩
      obtain ⟨x, xs, rfl, rfl, rfl⟩ := List.map_eq_cons_iff.mp hxs
      rw [List.map_cons, List.append_cons] at hw
      have hv' : ((v.projects ++ [x.project]).map Project.name).Nodup := by
        refine hnodup.sublist (List.Sublist.map _ ?_)
        rw [hw]
        exact List.sublist_append_left _ _
      have hnew : v.project? x.project.name = none := by
        rw [List.map_append, List.map_singleton] at hv'
        rw [project?_eq_none_iff]
        exact List.disjoint_singleton.mp (List.disjoint_of_nodup_append hv')
      have hload := (load_iff hd).mpr ⟨x, rfl, hin x List.mem_cons_self, hnew, rfl⟩
      rw [hload]
      exact (ih hv').mpr
        ⟨xs, rfl, fun y hy => hin y (List.mem_cons_of_mem _ hy), hw, hnodup⟩

/-- A discovered workspace holds the projects of the documents that are found, and they have
different names. -/
theorem discover_iff (hd : d.Rooted) :
    discover (.open d) = .ok w ↔ ∃ xs : List Document,
      documents.collect d [] = .ok (xs.map Document.place) ∧ (∀ x ∈ xs, x.InDisk d) ∧
      w.projects = xs.map Document.project ∧ (w.projects.map Project.name).Nodup := by
  constructor
  · intro h
    obtain ⟨found, hfound, h⟩ := ok_of_bind h
    obtain ⟨xs, rfl, hrest⟩ := (foldlM_load_iff hd (by simp [empty])).mp h
    exact ⟨xs, hfound, hrest⟩
  · rintro ⟨xs, hfound, hrest⟩
    have hload := (foldlM_load_iff (v := .empty) hd (by simp [empty])).mpr ⟨xs, rfl, hrest⟩
    unfold discover
    dsimp only [Staging.open]
    rw [hfound]
    exact hload

/-- The place of a project document. -/
def IsDocument (n : List String) : Prop :=
  n.getLast? = some Project.fileName

theorem isDocument_of_wants {n : List String} (h : documents.Wants n) : IsDocument n := by
  have hname : n.getLast?.getD "" = Project.fileName := by
    simpa [documents, FileQuery.hasName, FileQuery.all] using h.1
  unfold IsDocument
  cases hlast : n.getLast? with
  | none =>
    rw [hlast] at hname
    cases (show ("" : String) ≠ Project.fileName by decide) hname
  | some a => rw [← hname, hlast]; rfl

end Workspace

end Retarget
