import Retarget.Proofs.Extraction.Entries
import Retarget.Proofs.Syntax.Programs

/-!
# The first call of a callee

`IsCallOf` says of a node that it calls or constructs what a bare name stands for, and
`Captures` says what a fragment records of such a node.  Whatever the tree is, as long as its
nodes are stretches of the source (`Node.Nested`), extraction gives every requested callee the
fragment of the first such node in pre-order, and nothing if there is none
(`first_match_extracted`).
-/

namespace Retarget.Extraction

open Syntax
open Place (bytes)

variable {strict : Bool} {callees others more : List String} {callee name : String}
  {cs : List Char} {source : Path} {tree n : Node} {e e' : Extracted} {f : Fragment}

/-! ## Calls -/

/-- A call or constructor expression whose callee is an identifier with a given text. -/
def IsCallOf (cs : List Char) (name : String) (n : Node) : Prop :=
  ∃ role callee, calleeRole? n = some role ∧ n.child? role = some callee ∧
    callee.is .identifier ∧ callee.textIn cs = name

theorem isCallOf_iff : IsCallOf cs name n ↔ ∃ c, callOf? cs n = some c ∧ c.name = name := by
  constructor
  · rintro ⟨role, callee, hrole, hcallee, his, rfl⟩
    exact ⟨_, callOf?_eq_some.mpr ⟨role, callee, hrole, hcallee, his, rfl⟩, rfl⟩
  · rintro ⟨c, hc, rfl⟩
    obtain ⟨role, callee, hrole, hcallee, his, rfl⟩ := callOf?_eq_some.mp hc
    exact ⟨role, callee, hrole, hcallee, his, rfl⟩

instance (cs : List Char) (name : String) (n : Node) : Decidable (IsCallOf cs name n) :=
  decidable_of_iff ((callOf? cs n).any fun c => c.name = name) (by
    rw [isCallOf_iff, Option.any_eq_true]
    simp)

/-- The first call of a callee is that of the first node that calls it. -/
theorem firstCall?_eq_some {c : Call} (h : firstCall? cs tree name = some c) :
    ∃ before n after, tree.preorder = before ++ n :: after ∧ callOf? cs n = some c ∧
      IsCallOf cs name n ∧ ∀ m ∈ before, ¬IsCallOf cs name m := by
  rw [firstCall?, calls_eq, List.find?_filterMap] at h
  obtain ⟨n, hfind, hn⟩ := Option.bind_eq_some_iff.mp h
  obtain ⟨hcall, before, after, hnodes, hbefore⟩ := List.find?_eq_some_iff_append.mp hfind
  refine ⟨before, n, after, hnodes, hn, ?_, ?_⟩
  · rw [isCallOf_iff]
    rw [hn] at hcall
    exact ⟨c, hn, by simpa using hcall⟩
  · intro m hm hcallee
    obtain ⟨d, hd, hname⟩ := isCallOf_iff.mp hcallee
    have hsilent := hbefore m hm
    rw [hd] at hsilent
    simp [hname] at hsilent

theorem firstCall?_eq_none :
    firstCall? cs tree name = none ↔ ∀ n ∈ tree.preorder, ¬IsCallOf cs name n := by
  rw [firstCall?, calls_eq, List.find?_eq_none]
  constructor
  · intro h n hn hcall
    obtain ⟨c, hc, hname⟩ := isCallOf_iff.mp hcall
    apply h c (List.mem_filterMap.mpr ⟨n, hn, hc⟩)
    simpa using hname
  · intro h c hc hname
    obtain ⟨n, hn, hc⟩ := List.mem_filterMap.mp hc
    apply h n hn
    exact isCallOf_iff.mpr ⟨c, hc, by simpa using hname⟩

/-! ## Fragments -/

/-- The first named child of arguments that is no comment. -/
def IsFirstArgument (arguments a : Node) : Prop :=
  ∃ before after, arguments.children = before ++ a :: after ∧ a.isNamed ∧ ¬a.is .comment ∧
    ∀ b ∈ before, b.isNamed → b.is .comment

/-- What the fragment of a call records: the line of the call, counted from one, and the stretch
of the source under its first argument, or the empty text if there is none. -/
structure Captures (cs : List Char) (source : Path) (n : Node) (f : Fragment) : Prop where
  source_eq : f.source = source
  line_eq : ∃ before after, cs = before ++ after ∧ bytes before = n.start ∧
    f.line = before.count '\n' + 1
  text_eq : (∃ arguments a before after, n.child? .arguments = some arguments ∧
      IsFirstArgument arguments a ∧ cs = before ++ f.text.toList ++ after ∧
      a.start = bytes before ∧ a.stop = bytes before + bytes f.text.toList ∧
      f.start = a.start ∧ f.stop = a.stop) ∨
    (f.text = "" ∧ f.stop = f.start ∧
      ∀ arguments, n.child? .arguments = some arguments →
        ∀ a ∈ arguments.children, a.isNamed → a.is .comment)

theorem isFirstArgument_of_firstArgument? {arguments a : Node}
    (h : firstArgument? arguments = some a) : IsFirstArgument arguments a := by
  rw [firstArgument?, Node.namedChildren, List.find?_filter] at h
  obtain ⟨ha, before, after, hchildren, hbefore⟩ := List.find?_eq_some_iff_append.mp h
  obtain ⟨hnamed, hcomment⟩ : a.isNamed = true ∧ a.is .comment = false := by simpa using ha
  refine ⟨before, after, hchildren, hnamed, by simp [hcomment], ?_⟩
  intro b hb hnamed
  simpa [hnamed] using hbefore b hb

theorem comment_of_firstArgument?_eq_none {arguments a : Node}
    (h : firstArgument? arguments = none) (ha : a ∈ arguments.children)
    (hnamed : a.isNamed = true) : a.is .comment = true := by
  rw [firstArgument?, Node.namedChildren, List.find?_filter, List.find?_eq_none] at h
  simpa [hnamed] using h a ha

/-- The row of a byte is the number of line breaks before it. -/
theorem row_pointIn (a b : List Char) : (pointIn (a ++ b) (bytes a)).row = a.count '\n' := by
  have hgo (a : List Char) (p : Point) :
      (pointIn.go (a ++ b) (bytes a) p).row = p.row + a.count '\n' := by
    induction a generalizing p with
    | nil =>
      cases b with
      | nil => rfl
      | cons c b => rfl
    | cons c a ih =>
      have hc := c.utf8Size_pos
      rw [List.cons_append, bytes_cons, pointIn.go, if_neg (by omega), Nat.add_sub_cancel_left, ih,
        List.count_cons]
      by_cases hbreak : c = '\n'
      · simp [hbreak]
        omega
      · simp [hbreak]
  have hrow := hgo a ⟨0, 0⟩
  rwa [Nat.zero_add] at hrow

/-- In a nested tree, what is recorded of a call is a stretch of the source. -/
theorem captures_fragmentOf (htree : tree.Nested cs) (hn : n ∈ tree.preorder) {c : Call}
    (hc : callOf? cs n = some c) : Captures cs source n (fragmentOf cs source c) := by
  obtain ⟨role, callee, -, -, -, rfl⟩ := callOf?_eq_some.mp hc
  have hline : ∃ before after, cs = before ++ after ∧ bytes before = n.start ∧
      (pointIn cs n.start).row + 1 = before.count '\n' + 1 := by
    obtain ⟨before, after, rfl, hbefore⟩ := (htree n hn).1
    refine ⟨before, after, rfl, hbefore, ?_⟩
    rw [← hbefore, row_pointIn]
  unfold fragmentOf
  dsimp only
  split
  · next a hfirst =>
    obtain ⟨arguments, harguments, hfirst⟩ := Option.bind_eq_some_iff.mp hfirst
    have ha : a ∈ tree.preorder := by
      have hchild := List.mem_of_find?_eq_some harguments
      have hnamed := (List.mem_filter.mp (List.mem_of_find?_eq_some hfirst)).1
      exact Node.mem_preorder_of_child (Node.mem_preorder_of_child hn hchild) hnamed
    obtain ⟨hstart, hstop, hle, -, -⟩ := htree a ha
    obtain ⟨before, text, after, hcs, hbefore, htext⟩ := hstart.between hstop hle
    have hslice : (a.textIn cs).toList = text := by
      rw [Node.textIn, slice, String.toList_ofList, hcs, sliceChars_middle _ _ _ hbefore htext]
    refine ⟨rfl, hline, .inl ⟨arguments, a, before, after, harguments,
      isFirstArgument_of_firstArgument? hfirst, ?_, hbefore, ?_, rfl, rfl⟩⟩
    · rw [hslice]
      exact hcs
    · rw [hslice]
      exact htext
  · next hnone =>
    refine ⟨rfl, hline, .inr ⟨rfl, rfl, ?_⟩⟩
    intro arguments harguments a ha hnamed
    rw [harguments] at hnone
    exact comment_of_firstArgument?_eq_none hnone ha hnamed

/-! ## Entries -/

/-- What extraction promises of a tree: one entry for each requested callee, in the order of the
first requests, which holds what is captured of the first node that calls the callee. -/
structure FirstMatches (cs : List Char) (source : Path) (tree : Node) (callees : List String)
    (e : Extracted) : Prop where
  names_eq : e.entries.map Prod.fst = callees.eraseDups
  nodup : (e.entries.map Prod.fst).Nodup
  absent_iff : ∀ x ∈ e.entries, x.2 = none ↔ ∀ n ∈ tree.preorder, ¬IsCallOf cs x.1 n
  found : ∀ x ∈ e.entries, ∀ f, x.2 = some f → f.callee = x.1 ∧
    ∃ before n after, tree.preorder = before ++ n :: after ∧ IsCallOf cs x.1 n ∧
      (∀ m ∈ before, ¬IsCallOf cs x.1 m) ∧ Captures cs source n f

theorem callee_fragmentOf (cs : List Char) (source : Path) (c : Call) :
    (fragmentOf cs source c).callee = c.name := by
  unfold fragmentOf
  dsimp only
  split
  · rfl
  · rfl

/-- The fragment of a callee is what is captured of the first node that calls it. -/
theorem captures_fragment? (htree : tree.Nested cs) (h : fragment? cs source tree name = some f) :
    f.callee = name ∧ ∃ before n after, tree.preorder = before ++ n :: after ∧ IsCallOf cs name n ∧
      (∀ m ∈ before, ¬IsCallOf cs name m) ∧ Captures cs source n f := by
  obtain ⟨c, hc, rfl⟩ := Option.map_eq_some_iff.mp h
  obtain ⟨before, n, after, hnodes, hn, hcall, hbefore⟩ := firstCall?_eq_some hc
  have hmem : n ∈ tree.preorder := by
    rw [hnodes]
    exact List.mem_append_right _ List.mem_cons_self
  constructor
  · rw [callee_fragmentOf]
    simpa using List.find?_some hc
  · exact ⟨before, n, after, hnodes, hcall, hbefore, captures_fragmentOf htree hmem hn⟩

theorem firstMatches_of_ofTree (htree : tree.Nested cs)
    (h : ofTree strict callees cs source tree = .ok e) : FirstMatches cs source tree callees e := by
  have hentries := ofTree_entries h
  have hnames : e.entries.map Prod.fst = distinct callees := by
    rw [hentries, List.map_map]
    exact List.map_id _
  constructor
  · rw [hnames, distinct_eq_eraseDups]
  · rw [hnames]
    exact nodup_distinct callees
  · intro x hx
    obtain ⟨-, hfound⟩ := mem_entries h hx
    rw [hfound, fragment?, Option.map_eq_none_iff]
    exact firstCall?_eq_none
  · intro x hx f hf
    obtain ⟨-, hfound⟩ := mem_entries h hx
    exact captures_fragment? htree (hfound.symm.trans hf)

/-- Further requests come behind the entries of the earlier ones. -/
theorem entries_prefix (h : ofTree strict callees cs source tree = .ok e)
    (h' : ofTree strict (callees ++ more) cs source tree = .ok e') : e.entries <+: e'.entries := by
  rw [ofTree_entries h, ofTree_entries h', distinct_eq_eraseDups, distinct_eq_eraseDups,
    List.eraseDups_append, List.map_append]
  exact List.prefix_append _ _

/-- Extraction finds the first match of each callee, in any tree whose nodes are stretches of the
source.  What else is requested, and in which order, changes no entry, and further requests come
behind the entries of earlier ones.  The tree of a source that is accepted is such a tree. -/
theorem first_match_extracted (callees : List String) (source : Path) :
    (∀ cs tree, tree.Nested cs →
      ∃ e, ofTree false callees cs source tree = .ok e ∧ FirstMatches cs source tree callees e ∧
        (∀ others e', ofTree false others cs source tree = .ok e' →
          ∀ callee ∈ callees, callee ∈ others → e'.get? callee = e.get? callee) ∧
        ∀ more e', ofTree false (callees ++ more) cs source tree = .ok e' →
          e.entries <+: e'.entries) ∧
      ∀ d text tree, Dialect.parse d text = .ok tree → tree.Nested text.toList ∧
        ofText false callees d source text = ofTree false callees text.toList source tree := by
  constructor
  · intro cs tree htree
    obtain ⟨e, he⟩ := ofTree_lenient callees cs source tree
    refine ⟨e, he, firstMatches_of_ofTree htree he, ?_, ?_⟩
    · intro others e' he' callee hcallee hother
      rw [get?_of_mem he hcallee, get?_of_mem he' hother]
    · intro more e' he'
      exact entries_prefix he he'
  · intro d text tree hparse
    exact ⟨(placed_of_parseChars hparse).nested, ofText_eq hparse false callees source⟩

/-- A text with two calls inside the arguments of another one, a constructor expression that holds
a comment only, and an argument behind a comment. -/
def callsText : String :=
  "f(g(1), g(2));\nnew g(/* none */);\nh(/* first */ 3);\n"

theorem first_match_extracted_calls :
    ∃ tree e, Dialect.parse .typescript callsText = .ok tree ∧ tree.Nested callsText.toList ∧
      ofText false ["h", "g", "x", "h"] .typescript ⟨"w.js"⟩ callsText = .ok e ∧
      FirstMatches callsText.toList ⟨"w.js"⟩ tree ["h", "g", "x", "h"] e ∧
      e.entries = [("h", some ⟨"h", "3", ⟨"w.js"⟩, 48, 49, 3⟩),
        ("g", some ⟨"g", "1", ⟨"w.js"⟩, 4, 5, 1⟩), ("x", none)] := by
  obtain ⟨hany, haccepted⟩ := first_match_extracted ["h", "g", "x", "h"] ⟨"w.js"⟩
  have hentries : ofText false ["h", "g", "x", "h"] .typescript ⟨"w.js"⟩ callsText =
      .ok ⟨[("h", some ⟨"h", "3", ⟨"w.js"⟩, 48, 49, 3⟩), ("g", some ⟨"g", "1", ⟨"w.js"⟩, 4, 5, 1⟩),
        ("x", none)]⟩ := by
    decide +kernel
  obtain ⟨tree, hparse, -⟩ := ok_of_bind hentries
  obtain ⟨hnested, htext⟩ := haccepted .typescript callsText tree hparse
  obtain ⟨e, he, hfirst, -⟩ := hany callsText.toList tree hnested
  have hsame := htext.trans he
  refine ⟨tree, e, hparse, hnested, hsame, hfirst, ?_⟩
  rw [hentries] at hsame
  rw [← Except.ok.inj hsame]

end Retarget.Extraction
