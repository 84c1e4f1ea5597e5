import Mathlib.Data.List.Induction
import Retarget.Extraction
import Retarget.Proofs.OrderedMap.Distinct

/-!
# What a walk collects

One walk over a tree fills the lists of all requested callees at once.  After some calls the
list of a callee holds the fragments of the calls of it seen so far, all of them with `strict`
and only the first one without (`record_listed`), so a whole walk leaves each callee with what
`kept` takes of its fragments (`hits_eq`).  What else was requested does not matter for it.
-/

namespace Retarget.Extraction

variable {strict : Bool} {callees names : List String} {callee n : String} {cs : List Char}
  {source : Path}

/-! ## Requests -/

theorem distinct_append_singleton (names : List String) (n : String) :
    distinct (names ++ [n]) =
      if (distinct names).contains n then distinct names else distinct names ++ [n] := by
  rw [distinct, List.foldl_append]
  rfl

/-- Requests are kept in the order in which they came first. -/
theorem distinct_eq_eraseDups (names : List String) : distinct names = names.eraseDups := by
  induction names using List.reverseRecOn with
  | nil => rfl
  | append_singleton names n ih =>
    rw [distinct_append_singleton, ih, List.eraseDups_append]
    by_cases hn : n ∈ names
    · have hremoved : [n].removeAll names = [] := by simp [List.removeAll, hn]
      rw [hremoved, if_pos (by simpa using hn), List.eraseDups_nil, List.append_nil]
    · have hremoved : [n].removeAll names = [n] := by simp [List.removeAll, hn]
      rw [hremoved, if_neg (by simpa using hn)]
      rfl

theorem mem_distinct : n ∈ distinct names ↔ n ∈ names := by
  rw [distinct_eq_eraseDups, List.mem_eraseDups]

theorem nodup_distinct (names : List String) : (distinct names).Nodup := by
  induction names using List.reverseRecOn with
  | nil => exact List.nodup_nil
  | append_singleton names n ih =>
    rw [distinct_append_singleton]
    split
    · exact ih
    · next hn =>
      rw [← List.concat_eq_append]
      exact ih.concat (by simpa using hn)

/-! ## Lists of fragments -/

/-- The fragments of the calls of a name. -/
def fragmentsOf (cs : List Char) (source : Path) (all : List Call) (name : String) :
    List Fragment :=
  (all.filter fun c => c.name = name).map (fragmentOf cs source)

/-- What is kept of the fragments of a name. -/
def kept (strict : Bool) (fs : List Fragment) : List Fragment :=
  if strict then fs else fs.take 1

theorem fragmentsOf_concat (cs : List Char) (source : Path) (seen : List Call) (c : Call)
    (name : String) :
    fragmentsOf cs source (seen ++ [c]) name = fragmentsOf cs source seen name ++
      if c.name = name then [fragmentOf cs source c] else [] := by
  unfold fragmentsOf
  rw [List.filter_append, List.map_append]
  by_cases hname : c.name = name
  · simp [hname]
  · simp [hname]

theorem kept_concat (strict : Bool) (fs : List Fragment) (f : Fragment) :
    (if !strict && !(kept strict fs).isEmpty then kept strict fs else kept strict fs ++ [f]) =
      kept strict (fs ++ [f]) := by
  cases strict with
  | true => rfl
  | false =>
    cases fs with
    | nil => rfl
    | cons g fs => rfl

theorem head?_kept (strict : Bool) (fs : List Fragment) : (kept strict fs).head? = fs.head? := by
  cases strict with
  | true => rfl
  | false =>
    cases fs with
    | nil => rfl
    | cons g fs => rfl

/-- A call adds to the list of its callee what is kept of it, and to no other list. -/
theorem record_listed (hnames : names.Nodup) (seen : List Call) (c : Call) :
    record strict cs source (names.map fun n => (n, kept strict (fragmentsOf cs source seen n))) c =
      names.map fun n => (n, kept strict (fragmentsOf cs source (seen ++ [c]) n)) := by
  have hkeys : (OrderedMap.keys
      (names.map fun n => (n, kept strict (fragmentsOf cs source seen n)))) = names := by
    simp [OrderedMap.keys, Function.comp_def]
  have hother : ∀ n, n ≠ c.name →
      fragmentsOf cs source (seen ++ [c]) n = fragmentsOf cs source seen n := by
    intro n hn
    rw [fragmentsOf_concat, if_neg hn.symm, List.append_nil]
  unfold record
  by_cases hmem : c.name ∈ names
  · have hget : OrderedMap.get? (names.map fun n => (n, kept strict (fragmentsOf cs source seen n)))
        c.name = some (kept strict (fragmentsOf cs source seen c.name)) :=
      OrderedMap.get?_of_mem (by rwa [hkeys]) (List.mem_map_of_mem hmem)
    have hown : fragmentsOf cs source (seen ++ [c]) c.name =
        fragmentsOf cs source seen c.name ++ [fragmentOf cs source c] := by
      rw [fragmentsOf_concat, if_pos rfl]
    have hkept := kept_concat strict (fragmentsOf cs source seen c.name) (fragmentOf cs source c)
    rw [hget]
    dsimp only
    split at hkept
    · next hfull =>
      rw [if_pos hfull]
      refine List.map_congr_left fun n _ => ?_
      by_cases hn : n = c.name
      · rw [hn, hown, ← hkept]
      · rw [hother n hn]
    · next hfree =>
      rw [if_neg hfree, hkept, OrderedMap.insert_eq_map (by rwa [hkeys]) (by rwa [hkeys]),
        List.map_map]
      refine List.map_congr_left fun n _ => ?_
      by_cases hn : n = c.name
      · simp [hn, hown]
      · simp [hn, hother n hn]
  · have hget : OrderedMap.get? (names.map fun n => (n, kept strict (fragmentsOf cs source seen n)))
        c.name = none := by
      rw [← Option.not_isSome_iff_eq_none]
      intro hsome
      exact hmem (hkeys ▸ OrderedMap.has_iff_mem_keys.mp hsome)
    rw [hget]
    dsimp only
    refine List.map_congr_left fun n hn => ?_
    rw [hother n fun h => hmem (h ▸ hn)]

/-- Further calls add to the lists what is kept of them. -/
theorem foldl_record (hnames : names.Nodup) (seen all : List Call) :
    all.foldl (record strict cs source)
        (names.map fun n => (n, kept strict (fragmentsOf cs source seen n))) =
      names.map fun n => (n, kept strict (fragmentsOf cs source (seen ++ all) n)) := by
  induction all generalizing seen with
  | nil => rw [List.foldl_nil, List.append_nil]
  | cons c all ih =>
    rw [List.foldl_cons, record_listed hnames, ih, List.append_assoc, List.singleton_append]

/-- A walk leaves every callee with what is kept of its fragments. -/
theorem hits_eq (strict : Bool) (callees : List String) (cs : List Char) (source : Path)
    (tree : Syntax.Node) :
    hits strict callees cs source tree = (distinct callees).map fun n =>
      (n, kept strict (fragmentsOf cs source (calls cs tree) n)) := by
  have hempty : ((distinct callees).map fun c => (c, ([] : List Fragment))) =
      (distinct callees).map fun n => (n, kept strict (fragmentsOf cs source [] n)) := by
    refine List.map_congr_left fun n _ => ?_
    cases strict with
    | true => rfl
    | false => rfl
  rw [hits, hempty, foldl_record (nodup_distinct callees), List.nil_append]

end Retarget.Extraction
