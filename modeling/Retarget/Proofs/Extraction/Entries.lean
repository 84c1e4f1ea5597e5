import Retarget.Proofs.Disk.Places
import Retarget.Proofs.Extraction.Hits
import Retarget.Proofs.Syntax.Placed
import Retarget.Proofs.Syntax.Walking

/-!
# What extraction finds

Every requested callee has one entry, and the entry holds the fragment of the first of its
calls in pre-order.  The text of a fragment is the stretch of the source that the first
argument covers.
-/

namespace Retarget

open Syntax

namespace Extraction

variable {strict : Bool} {callees names : List String} {callee n : String} {cs : List Char}
  {source : Path} {tree : Node} {e : Extracted} {found : Option Fragment} {f : Fragment}

/-- The first call of a callee in pre-order. -/
def firstCall? (cs : List Char) (tree : Node) (callee : String) : Option Call :=
  (calls cs tree).find? fun c => c.name = callee

/-- The fragment of a callee. -/
def fragment? (cs : List Char) (source : Path) (tree : Node) (callee : String) : Option Fragment :=
  (firstCall? cs tree callee).map (fragmentOf cs source)

theorem calls_eq (cs : List Char) (tree : Node) :
    calls cs tree = tree.preorder.filterMap (callOf? cs) := by
  rw [calls, Cursor.walk_eq_preorder]

theorem head?_fragmentsOf (cs : List Char) (source : Path) (tree : Node) (callee : String) :
    (fragmentsOf cs source (calls cs tree) callee).head? = fragment? cs source tree callee := by
  rw [fragmentsOf, List.head?_map, List.head?_filter]
  rfl

/-- An entry holds the fragment of the first call. -/
theorem entry_eq {x : String × Option Fragment}
    (h : entry strict source (callee, kept strict (fragmentsOf cs source (calls cs tree) callee)) =
      .ok x) : x = (callee, fragment? cs source tree callee) := by
  unfold entry at h
  split at h
  · cases h
  · obtain rfl := Except.ok.inj h
    rw [head?_kept, head?_fragmentsOf]

theorem ofTree_entries (h : ofTree strict callees cs source tree = .ok e) :
    e.entries = (distinct callees).map fun c => (c, fragment? cs source tree c) := by
  have hmap (names : List String) {found : List (String × Option Fragment)}
      (h : (names.map fun n => (n, kept strict (fragmentsOf cs source (calls cs tree) n))).mapM
        (entry strict source) = .ok found) :
      found = names.map fun c => (c, fragment? cs source tree c) := by
    induction names generalizing found with
    | nil =>
      rw [List.map_nil, List.mapM_nil] at h
      exact (Except.ok.inj h).symm
    | cons name names ih =>
      rw [List.map_cons, List.mapM_cons] at h
      obtain ⟨x, hname, h⟩ := ok_of_bind h
      obtain ⟨xs, hnames, h⟩ := ok_of_bind h
      obtain rfl := Except.ok.inj h
      rw [List.map_cons, entry_eq hname, ih hnames]
  obtain ⟨found, hentries, h⟩ := ok_of_bind h
  obtain rfl := Except.ok.inj h
  rw [hits_eq] at hentries
  exact hmap _ hentries

/-- An entry is that of a requested callee. -/
theorem mem_entries (h : ofTree strict callees cs source tree = .ok e)
    (hfound : (callee, found) ∈ e.entries) :
    callee ∈ callees ∧ found = fragment? cs source tree callee := by
  rw [ofTree_entries h] at hfound
  obtain ⟨c, hc, heq⟩ := List.mem_map.mp hfound
  obtain ⟨rfl, rfl⟩ := Prod.mk.inj heq
  exact ⟨mem_distinct.mp hc, rfl⟩

theorem get?_of_mem (h : ofTree strict callees cs source tree = .ok e) (hc : callee ∈ callees) :
    e.get? callee = fragment? cs source tree callee := by
  have hfind (names : List String) (hc : callee ∈ names) :
      (names.map fun c => (c, fragment? cs source tree c)).find? (fun x => x.1 = callee) =
        some (callee, fragment? cs source tree callee) := by
    induction names with
    | nil => cases hc
    | cons m names ih =>
      rw [List.map_cons, List.find?_cons]
      by_cases hm : m = callee
      · simp [hm]
      · rw [decide_eq_false hm]
        exact ih ((List.mem_cons.mp hc).resolve_left (Ne.symm hm))
  rw [Extracted.get?, ofTree_entries h, hfind _ (mem_distinct.mpr hc)]
  rfl

/-- Without `strict` every callee may have several calls. -/
theorem ofTree_lenient (callees : List String) (cs : List Char) (source : Path) (tree : Node) :
    ∃ e, ofTree false callees cs source tree = .ok e := by
  have hmap (found : Hits) : ∃ entries, found.mapM (entry false source) = .ok entries := by
    induction found with
    | nil => exact ⟨[], rfl⟩
    | cons x found ih =>
      obtain ⟨entries, hentries⟩ := ih
      rw [List.mapM_cons, hentries]
      exact ⟨_, rfl⟩
  obtain ⟨entries, hentries⟩ := hmap (hits false callees cs source tree)
  exact ⟨⟨entries⟩, by rw [ofTree, hentries]; rfl⟩

theorem ofText_eq {d : Dialect} {text : String} (htree : d.parseChars text.toList = .ok tree)
    (strict : Bool) (callees : List String) (source : Path) :
    ofText strict callees d source text = ofTree strict callees text.toList source tree := by
  unfold ofText
  dsimp only
  rw [htree]
  rfl

/-! ## The text of a fragment -/

/-- The role that the callee plays in a call or in a constructor expression. -/
def calleeRole? (n : Node) : Option Field :=
  if n.is .callExpression then some .function
  else if n.is .newExpression then some .constructorName else none

theorem callOf?_eq (cs : List Char) (node : Node) :
    callOf? cs node = (calleeRole? node).bind fun role =>
      (node.child? role).bind fun name =>
        if name.is .identifier then some ⟨name.textIn cs, node.child? .arguments, node⟩
        else none := by
  unfold callOf? calleeRole?
  by_cases hcall : node.is .callExpression = true
  · simp [hcall]
  · by_cases hnew : node.is .newExpression = true
    · simp [hcall, hnew]
    · simp [hcall, hnew]

theorem callOf?_eq_some {node : Node} {c : Call} : callOf? cs node = some c ↔
    ∃ role name, calleeRole? node = some role ∧ node.child? role = some name ∧
      name.is .identifier ∧ c = ⟨name.textIn cs, node.child? .arguments, node⟩ := by
  rw [callOf?_eq]
  constructor
  · intro h
    obtain ⟨role, hrole, h⟩ := Option.bind_eq_some_iff.mp h
    obtain ⟨name, hname, h⟩ := Option.bind_eq_some_iff.mp h
    split at h
    · next his => exact ⟨role, name, hrole, hname, his, (Option.some.inj h).symm⟩
    · cases h
  · rintro ⟨role, name, hrole, hname, his, rfl⟩
    rw [hrole, Option.bind_some, hname, Option.bind_some, if_pos his]

/-- A fragment is empty, or it covers a node of the tree. -/
theorem fragment?_text (h : fragment? cs source tree callee = some f) :
    f.text = "" ∧ f.stop = f.start ∨
      ∃ a ∈ tree.preorder, f.text = a.textIn cs ∧ f.start = a.start ∧ f.stop = a.stop := by
  obtain ⟨c, hc, rfl⟩ := Option.map_eq_some_iff.mp h
  have hmem := List.mem_of_find?_eq_some hc
  rw [calls_eq, List.mem_filterMap] at hmem
  obtain ⟨node, hnode, hcall⟩ := hmem
  unfold fragmentOf
  dsimp only
  split
  · next a ha =>
    refine .inr ⟨a, ?_, rfl, rfl, rfl⟩
    obtain ⟨arguments, harguments, hfirst⟩ := Option.bind_eq_some_iff.mp ha
    obtain ⟨role, name, -, -, -, rfl⟩ := callOf?_eq_some.mp hcall
    have hchild := List.mem_of_find?_eq_some harguments
    have hnamed := (List.mem_filter.mp (List.mem_of_find?_eq_some hfirst)).1
    exact Node.mem_preorder_of_child (Node.mem_preorder_of_child hnode hchild) hnamed
  · exact .inl ⟨rfl, rfl⟩

end Extraction

end Retarget
