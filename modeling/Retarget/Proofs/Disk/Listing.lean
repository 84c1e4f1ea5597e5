import Mathlib.Data.List.Sort
import Mathlib.Data.String.Basic
import Retarget.FileQuery
import Retarget.Proofs.Disk.Distinct

/-!
# What a walk lists

A walk takes the entries of a folder by name, so it lists places in lexicographic order,
and it comes by every file whose folders it may enter.  Sorted lists with the same members
are equal.  So what a query collects depends on which wanted files are there and on nothing
else of the directory.
-/

namespace Retarget

namespace Disk

variable {d : Disk} {n : List String} {a : String} {x : Entry}

theorem sortByName_eq {α : Type} (xs : List (String × α)) :
    sortByName xs = xs.insertionSort fun x y => x.1 ≤ y.1 := by
  have hplace (x : String × α) (ys : List (String × α)) :
      placeByName x ys = ys.orderedInsert (fun x y => x.1 ≤ y.1) x := by
    induction ys with
    | nil => rfl
    | cons y ys ih => rw [placeByName, List.orderedInsert_cons, ih]
  induction xs with
  | nil => rfl
  | cons x xs ih =>
    rw [List.insertionSort_cons, ← ih, ← hplace]
    rfl

/-- The entry that a child of a folder is. -/
def childOf (n : List String) (x : List String × Entry) : Option (String × Entry) :=
  if x.1.dropLast = n then x.1.getLast?.map fun a => (a, x.2) else none

theorem childOf_eq_some {y : List String × Entry} :
    childOf n y = some (a, x) ↔ y = (n ++ [a], x) := by
  obtain ⟨k, z⟩ := y
  simp only [childOf, Option.ite_none_right_eq_some, Option.map_eq_some_iff, Prod.mk.injEq]
  constructor
  · rintro ⟨rfl, b, hb, rfl, rfl⟩
    obtain ⟨init, rfl⟩ := List.getLast?_eq_some_iff.mp hb
    simp
  · rintro ⟨rfl, rfl⟩
    simp

theorem children_perm (d : Disk) (n : List String) :
    (d.children n).Perm (List.filterMap (childOf n) d.entries) := by
  unfold children
  rw [sortByName_eq]
  exact List.perm_insertionSort _ _

theorem mem_children : (a, x) ∈ d.children n ↔ (n ++ [a], x) ∈ d.entries := by
  rw [(d.children_perm n).mem_iff, List.mem_filterMap]
  simp only [childOf_eq_some, exists_eq_right]

/-- The children of a folder come in the order of their names. -/
theorem pairwise_children (hd : d.Distinct) (n : List String) :
    (d.children n).Pairwise fun x y => x.1 < y.1 := by
  have hsorted : (d.children n).Pairwise fun x y => x.1 ≤ y.1 := by
    unfold children
    rw [sortByName_eq]
    exact List.pairwise_insertionSort _ _
  have hdistinct : (d.children n).Pairwise fun x y => x.1 ≠ y.1 := by
    rw [(d.children_perm n).pairwise_iff Ne.symm, List.pairwise_filterMap]
    refine (List.pairwise_map.mp hd).imp ?_
    rintro y y' hne ⟨a, x⟩ hx ⟨b, x'⟩ hx' rfl
    apply hne
    rw [childOf_eq_some.mp hx, childOf_eq_some.mp hx']
  exact (hsorted.and hdistinct).imp fun h => lt_of_le_of_ne h.1 h.2

theorem isSome_of_append (hd : d.Rooted) {s : List String}
    (h : (d.entry? (n ++ s)).isSome) : (d.entry? n).isSome := by
  by_cases hs : s = []
  · rwa [hs, List.append_nil] at h
  · rw [folder_of_append hd hs h]
    rfl

/-- Only a folder has something below it. -/
theorem eq_nil_of_isSome (hd : d.Rooted) (hn : d.entry? n ≠ some .folder) {s : List String}
    (h : (d.entry? (n ++ s)).isSome) : s = [] := by
  by_contra hne
  exact hn (folder_of_append hd hne h)

theorem isSome_entry?_of_fileAt? (h : (d.fileAt? n).isSome) : (d.entry? n).isSome := by
  obtain ⟨c, hc⟩ := Option.isSome_iff_exists.mp h
  rw [fileAt?_eq_some.mp hc]
  rfl

end Disk

namespace FileQuery

variable {d e : Disk} {enter : List String → Bool} {k : Nat} {n r names rel : List String}

/-- A walk stays below where it starts. -/
theorem exists_of_mem_walk (h : (n, r) ∈ walk d enter k names rel) : ∃ s, n = names ++ s := by
  induction k generalizing names rel with
  | zero => cases h
  | succ k ih =>
    unfold walk at h
    split at h
    · cases h
    · obtain ⟨rfl, rfl⟩ := Prod.mk.inj (List.mem_singleton.mp h)
      exact ⟨[], (List.append_nil _).symm⟩
    · obtain ⟨c, -, h⟩ := List.mem_flatMap.mp h
      split at h
      · obtain ⟨s, rfl⟩ := ih h
        exact ⟨c.1 :: s, by rw [List.append_assoc, List.singleton_append]⟩
      · cases h

/-- A walk lists places in lexicographic order. -/
theorem pairwise_walk (hd : d.Distinct) (enter : List String → Bool) (k : Nat)
    (names rel : List String) :
    (walk d enter k names rel).Pairwise fun x y => x.1 < y.1 := by
  induction k generalizing names rel with
  | zero => exact List.Pairwise.nil
  | succ k ih =>
    unfold walk
    split
    · exact List.Pairwise.nil
    · exact List.pairwise_singleton _ _
    · rw [List.pairwise_flatMap]
      constructor
      · intro c _
        split
        · exact ih _ _
        · exact List.Pairwise.nil
      · refine (Disk.pairwise_children hd names).imp ?_
        rintro c c' hlt ⟨n, r⟩ hx ⟨n', r'⟩ hy
        split at hx
        · split at hy
          · obtain ⟨s, rfl⟩ := exists_of_mem_walk hx
            obtain ⟨s', rfl⟩ := exists_of_mem_walk hy
            simp only [List.append_assoc, List.singleton_append]
            exact List.append_left_lt (List.cons_lt_cons_iff.mpr (.inl hlt))
          · cases hy
        · cases hx

/-- Every folder on the way down may be entered. -/
def Entered (enter : List String → Bool) (rel s : List String) : Prop :=
  ∀ t, t <+: s → t ≠ [] → enter (rel ++ t) = true

theorem entered_nil (enter : List String → Bool) (rel : List String) : Entered enter rel [] := by
  intro t ht hne
  exact absurd (List.prefix_nil.mp ht) hne

theorem entered_cons {a : String} {s : List String} :
    Entered enter rel (a :: s) ↔ enter (rel ++ [a]) = true ∧ Entered enter (rel ++ [a]) s := by
  constructor
  · intro h
    refine ⟨h [a] (by simp) (by simp), fun t ht _ => ?_⟩
    have := h (a :: t) (List.cons_prefix_cons.mpr ⟨rfl, ht⟩) (by simp)
    rwa [List.append_assoc]
  · rintro ⟨ha, h⟩ t ht hne
    obtain ⟨b, t, rfl⟩ := List.exists_cons_of_ne_nil hne
    obtain ⟨rfl, htail⟩ := List.cons_prefix_cons.mp ht
    by_cases hnil : t = []
    · rw [hnil]
      exact ha
    · have := h t htail hnil
      rwa [List.append_assoc] at this

/-- A walk that goes deep enough comes by every file whose folders it may enter. -/
theorem mem_walk_iff (hd : d.Rooted)
    (hk : ∀ s, (d.entry? (names ++ s)).isSome → s.length < k) :
    (n, r) ∈ walk d enter k names rel ↔
      ∃ s, n = names ++ s ∧ r = rel ++ s ∧ (d.fileAt? n).isSome ∧ Entered enter rel s := by
  induction k generalizing names rel with
  | zero =>
    constructor
    · intro h
      cases h
    · rintro ⟨s, rfl, -, hfile, -⟩
      exact absurd (hk s (Disk.isSome_entry?_of_fileAt? hfile)) (Nat.not_lt_zero _)
  | succ k ih =>
    unfold walk
    split
    · next hnone =>
      constructor
      · intro h
        cases h
      · rintro ⟨s, rfl, -, hfile, -⟩
        obtain rfl := Disk.eq_nil_of_isSome hd (by simp [hnone])
          (Disk.isSome_entry?_of_fileAt? hfile)
        simp [Disk.fileAt?, hnone] at hfile
    · next c hfile =>
      rw [List.mem_singleton, Prod.mk.injEq]
      constructor
      · rintro ⟨rfl, rfl⟩
        exact ⟨[], by simp, by simp, by simp [Disk.fileAt?, hfile], entered_nil _ _⟩
      · rintro ⟨s, rfl, rfl, hsome, -⟩
        obtain rfl := Disk.eq_nil_of_isSome hd (by simp [hfile])
          (Disk.isSome_entry?_of_fileAt? hsome)
        simp
    · next hfolder =>
      have deeper (a : String) (s : List String)
          (h : (d.entry? (names ++ [a] ++ s)).isSome) : s.length < k := by
        rw [List.append_assoc] at h
        exact Nat.lt_of_succ_lt_succ (hk (a :: s) h)
      rw [List.mem_flatMap]
      constructor
      · rintro ⟨c, -, h⟩
        split at h
        · next henter =>
          obtain ⟨s, rfl, rfl, hfile, hinner⟩ := (ih (deeper c.1)).mp h
          exact ⟨c.1 :: s, by simp, by simp, hfile, entered_cons.mpr ⟨henter, hinner⟩⟩
        · cases h
      · rintro ⟨s, rfl, rfl, hfile, hinner⟩
        cases s with
        | nil => simp [Disk.fileAt?, hfolder] at hfile
        | cons a s =>
          obtain ⟨henter, hinner⟩ := entered_cons.mp hinner
          rw [List.append_cons] at hfile
          have hsome : (d.entry? (names ++ [a])).isSome :=
            Disk.isSome_of_append hd (Disk.isSome_entry?_of_fileAt? hfile)
          obtain ⟨x, hx⟩ := (Disk.mem_entries_of_isSome hsome).resolve_left (by simp)
          refine ⟨(a, x), Disk.mem_children.mpr hx, ?_⟩
          rw [if_pos henter]
          exact (ih (deeper a)).mpr ⟨s, by simp, by simp, by simpa using hfile, hinner⟩

/-- Nothing stands deeper than the depth of a directory. -/
theorem length_le_depthOf (h : (d.entry? n).isSome) : n.length ≤ depthOf d := by
  have grows (xs : List (List String × Entry)) (m : Nat) :
      m ≤ xs.foldl (fun m x => max m x.1.length) m ∧
        ∀ x ∈ xs, x.1.length ≤ xs.foldl (fun m x => max m x.1.length) m := by
    induction xs generalizing m with
    | nil => exact ⟨Nat.le_refl _, by simp⟩
    | cons y ys ih =>
      obtain ⟨hstart, hall⟩ := ih (max m y.1.length)
      rw [List.foldl_cons]
      refine ⟨Nat.le_trans (Nat.le_max_left _ _) hstart, fun x hx => ?_⟩
      rcases List.mem_cons.mp hx with rfl | hx
      · exact Nat.le_trans (Nat.le_max_right _ _) hstart
      · exact hall x hx
  rcases Disk.mem_entries_of_isSome h with rfl | ⟨x, hx⟩
  · exact Nat.zero_le _
  · exact (grows d.entries 0).2 _ hx

/-- The walk of a query goes deep enough. -/
theorem mem_walk_collect (hd : d.Rooted) {start : List String} :
    (n, r) ∈ walk d enter (depthOf d + 1) start [] ↔
      n = start ++ r ∧ (d.fileAt? n).isSome ∧ Entered enter [] r := by
  rw [mem_walk_iff hd]
  · constructor
    · rintro ⟨s, rfl, rfl, hfile, hentered⟩
      exact ⟨rfl, hfile, hentered⟩
    · rintro ⟨rfl, hfile, hentered⟩
      exact ⟨r, rfl, rfl, hfile, hentered⟩
  · intro s hs
    have := length_le_depthOf hs
    rw [List.length_append] at this
    omega

/-- Whether the name of a file is wanted. -/
def Wants (q : FileQuery) (n : List String) : Prop :=
  q.hasName (n.getLast?.getD "") = true ∧ q.hasExtension (n.getLast?.getD "") = true

variable {q : FileQuery} {includes excludes : List String → Bool} {start : List String}

/-- What is selected are the files with wanted names whose folders are not excluded. -/
theorem mem_select_iff (hd : d.Rooted) :
    n ∈ q.select includes excludes d start ↔
      ∃ r, n = start ++ r ∧ (d.fileAt? n).isSome ∧ Entered (fun rel => !excludes rel) [] r ∧
        q.Wants n ∧ (q.included.isEmpty || includes r) = true := by
  simp only [select, List.mem_map, List.mem_filter, Prod.exists, exists_and_right, exists_eq_right,
    mem_walk_collect hd, Bool.and_eq_true]
  simp only [Wants, and_assoc]

/-- Files are selected in lexicographic order. -/
theorem pairwise_select (hd : d.Distinct) (q : FileQuery) (includes excludes : List String → Bool)
    (start : List String) : (q.select includes excludes d start).Pairwise (· < ·) :=
  List.pairwise_map.mpr ((pairwise_walk hd _ _ _ _).filter _)

/-- What is collected are files with wanted names. -/
theorem of_mem_collect {found : List (List String)} (hd : d.Rooted)
    (h : q.collect d start = .ok found) (hn : n ∈ found) : q.Wants n ∧ (d.fileAt? n).isSome := by
  obtain ⟨included, -, h⟩ := ok_of_bind h
  obtain ⟨excluded, -, h⟩ := ok_of_bind h
  obtain rfl := Except.ok.inj h
  obtain ⟨r, -, hfile, -, hwants, -⟩ := (mem_select_iff hd).mp hn
  exact ⟨hwants, hfile⟩

/-- What is collected depends on which wanted files are there. -/
theorem collect_congr (start : List String) (hd : d.Rooted) (he : e.Rooted)
    (hdistinct : d.Distinct) (hdistinct' : e.Distinct)
    (h : ∀ n, q.Wants n → ((d.fileAt? n).isSome ↔ (e.fileAt? n).isSome)) :
    q.collect d start = q.collect e start := by
  unfold collect
  refine bind_congr fun included => bind_congr fun excluded => ?_
  apply congrArg Except.ok
  refine (pairwise_select hdistinct _ _ _ _).eq_of_mem_iff (pairwise_select hdistinct' _ _ _ _)
    fun n => ?_
  rw [mem_select_iff hd, mem_select_iff he]
  refine exists_congr fun r => and_congr_right fun _ => ?_
  by_cases hwants : q.Wants n
  · rw [h n hwants]
  · simp only [hwants, false_and, and_false]

end FileQuery

end Retarget
