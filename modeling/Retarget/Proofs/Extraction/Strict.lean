import Retarget.Proofs.Extraction.FirstMatch

/-!
# Callees that are called once

With `strict`, extraction refuses a requested callee that more than one node of the tree calls.
The first request of such a callee decides the failure, which tells how many nodes call it;
without one, extraction with `strict` gives the same entries as without
(`strict_agrees_with_first_match`).
-/

namespace Retarget.Extraction

open Syntax

variable {callees names before after : List String} {callee name : String} {cs : List Char}
  {source : Path} {tree : Node} {e : Extracted} {d : Dialect} {text : String}

/-- The number of nodes that call a callee. -/
def callCount (cs : List Char) (tree : Node) (name : String) : Nat :=
  tree.preorder.countP fun n => decide (IsCallOf cs name n)

/-- Every node that calls a callee gives one fragment. -/
theorem length_fragmentsOf (cs : List Char) (source : Path) (tree : Node) (name : String) :
    (fragmentsOf cs source (calls cs tree) name).length = callCount cs tree name := by
  rw [fragmentsOf, List.length_map, ← List.countP_eq_length_filter, calls_eq, List.countP_filterMap,
    callCount]
  apply List.countP_congr
  intro n _
  rw [decide_eq_true_iff, isCallOf_iff]
  cases callOf? cs n with
  | none => simp
  | some c => simp

/-- What a strict walk leaves to be checked: the fragments of the requested callees. -/
theorem ofTree_strict_eq (callees : List String) (cs : List Char) (source : Path) (tree : Node) :
    ofTree true callees cs source tree =
      ((distinct callees).mapM fun n =>
        entry true source (n, fragmentsOf cs source (calls cs tree) n)).map Extracted.mk := by
  rw [ofTree, hits_eq, List.mapM_map]
  rfl

theorem entry_of_le (h : callCount cs tree name ≤ 1) :
    entry true source (name, fragmentsOf cs source (calls cs tree) name) =
      .ok (name, fragment? cs source tree name) := by
  rw [← length_fragmentsOf cs source] at h
  rw [entry, if_neg, head?_fragmentsOf]
  simpa using h

theorem entry_of_lt (h : 1 < callCount cs tree name) :
    entry true source (name, fragmentsOf cs source (calls cs tree) name) =
      .error (.ambiguousMatch source name (callCount cs tree name)) := by
  rw [← length_fragmentsOf cs source] at h ⊢
  rw [entry, if_pos]
  simpa using h

theorem mapM_entry_of_le (h : ∀ n ∈ names, callCount cs tree n ≤ 1) :
    (names.mapM fun n => entry true source (n, fragmentsOf cs source (calls cs tree) n)) =
      .ok (names.map fun n => (n, fragment? cs source tree n)) := by
  induction names with
  | nil => rfl
  | cons n names ih =>
    rw [List.mapM_cons, entry_of_le (h n List.mem_cons_self),
      ih fun m hm => h m (List.mem_cons_of_mem _ hm)]
    rfl

/-- The first callee that is called more than once decides the failure. -/
theorem mapM_entry_of_lt (hbefore : ∀ n ∈ before, callCount cs tree n ≤ 1)
    (hname : 1 < callCount cs tree name) (after : List String) :
    ((before ++ name :: after).mapM fun n =>
        entry true source (n, fragmentsOf cs source (calls cs tree) n)) =
      .error (.ambiguousMatch source name (callCount cs tree name)) := by
  rw [List.mapM_append, mapM_entry_of_le hbefore, List.mapM_cons, entry_of_lt hname]
  rfl

/-- A callee that was not requested before is requested right behind the callees before it. -/
theorem distinct_append_cons (hname : name ∉ before) (after : List String) :
    ∃ rest, distinct (before ++ name :: after) = distinct before ++ name :: rest := by
  have hremoved : (name :: after).removeAll before = name :: after.removeAll before := by
    simp [List.removeAll, hname]
  rw [distinct_eq_eraseDups, distinct_eq_eraseDups, List.eraseDups_append, hremoved,
    List.eraseDups_cons]
  exact ⟨_, rfl⟩

theorem ofTree_strict_of_le (h : ∀ n ∈ callees, callCount cs tree n ≤ 1) :
    ofTree true callees cs source tree = ofTree false callees cs source tree := by
  have hdistinct : ∀ n ∈ distinct callees, callCount cs tree n ≤ 1 := by
    intro n hn
    exact h n (mem_distinct.mp hn)
  obtain ⟨e, he⟩ := ofTree_lenient callees cs source tree
  have hentries := ofTree_entries he
  rw [ofTree_strict_eq, mapM_entry_of_le hdistinct, he, ← hentries]
  rfl

theorem ofTree_strict_of_lt (hbefore : ∀ n ∈ before, callCount cs tree n ≤ 1)
    (hname : 1 < callCount cs tree name) :
    ofTree true (before ++ name :: after) cs source tree =
      .error (.ambiguousMatch source name (callCount cs tree name)) := by
  have hnew : name ∉ before := by
    intro hmem
    exact Nat.not_lt.mpr (hbefore name hmem) hname
  obtain ⟨rest, hrest⟩ := distinct_append_cons hnew after
  have hdistinct : ∀ n ∈ distinct before, callCount cs tree n ≤ 1 := by
    intro n hn
    exact hbefore n (mem_distinct.mp hn)
  rw [ofTree_strict_eq, hrest, mapM_entry_of_lt hdistinct hname]
  rfl

/-- If some requested callee is called more than once, one of them is requested first. -/
theorem exists_first_ambiguous (h : ¬∀ n ∈ callees, callCount cs tree n ≤ 1) :
    ∃ before name after, callees = before ++ name :: after ∧
      (∀ n ∈ before, callCount cs tree n ≤ 1) ∧ 1 < callCount cs tree name := by
  have hsome : ∃ n ∈ callees, decide (1 < callCount cs tree n) = true := by
    push Not at h
    simpa using h
  obtain ⟨name, hfind⟩ := Option.isSome_iff_exists.mp (List.find?_isSome.mpr hsome)
  obtain ⟨hname, before, after, hcallees, hbefore⟩ := List.find?_eq_some_iff_append.mp hfind
  refine ⟨before, name, after, hcallees, ?_, by simpa using hname⟩
  intro n hn
  simpa using hbefore n hn

theorem ofTree_strict_ok_iff :
    ofTree true callees cs source tree = .ok e ↔
      ofTree false callees cs source tree = .ok e ∧ ∀ n ∈ callees, callCount cs tree n ≤ 1 := by
  constructor
  · intro h
    have hcounts : ∀ n ∈ callees, callCount cs tree n ≤ 1 := by
      by_contra hsome
      obtain ⟨before, name, after, rfl, hbefore, hname⟩ := exists_first_ambiguous hsome
      rw [ofTree_strict_of_lt hbefore hname] at h
      cases h
    rw [← ofTree_strict_of_le hcounts]
    exact ⟨h, hcounts⟩
  · rintro ⟨h, hcounts⟩
    rwa [ofTree_strict_of_le hcounts]

/-- Extraction with `strict` succeeds just if it does without and no requested callee is called by
more than one node of the whole tree, and then the entries are the same.  Otherwise the callee
requested first among those called more often is reported with the exact number of its calls; a
text that is no program fails alike in both modes. -/
theorem strict_agrees_with_first_match (callees : List String) (d : Dialect) (source : Path)
    (text : String) :
    (∀ e, ofText true callees d source text = .ok e ↔
      ofText false callees d source text = .ok e ∧
        ∀ tree, d.parse text = .ok tree → ∀ n ∈ callees, callCount text.toList tree n ≤ 1) ∧
      (∀ tree before name after, d.parse text = .ok tree → callees = before ++ name :: after →
        (∀ n ∈ before, callCount text.toList tree n ≤ 1) → 1 < callCount text.toList tree name →
        ofText true callees d source text =
          .error (.ambiguousMatch source name (callCount text.toList tree name))) ∧
      ∀ f, d.parse text = .error f →
        ofText true callees d source text = .error f ∧
          ofText false callees d source text = .error f := by
  have hrejected {strict : Bool} {f : Failure} (hparse : d.parse text = .error f) :
      ofText strict callees d source text = .error f := by
    unfold ofText
    dsimp only
    rw [show d.parseChars text.toList = .error f from hparse]
    rfl
  refine ⟨?_, ?_, ?_⟩
  · intro e
    cases hparse : d.parse text with
    | error f =>
      rw [hrejected hparse, hrejected hparse]
      simp
    | ok tree =>
      rw [ofText_eq hparse, ofText_eq hparse, ofTree_strict_ok_iff]
      simp
  · rintro tree before name after hparse rfl hbefore hname
    rw [ofText_eq hparse, ofTree_strict_of_lt hbefore hname]
  · intro f hparse
    exact ⟨hrejected hparse, hrejected hparse⟩

/-- A text that calls two functions twice, one of them with `new`, one of them inside the arguments
of the other. -/
def repeatedText : String :=
  "f(1);\nnew g(2);\nf(g(3));\n"

theorem strict_agrees_with_first_match_repeated :
    ∃ tree, Dialect.parse .typescript repeatedText = .ok tree ∧
      ["h", "g", "f"].map (callCount repeatedText.toList tree) = [0, 2, 2] ∧
      ofText true ["h", "g", "f"] .typescript ⟨"w.js"⟩ repeatedText =
        .error (.ambiguousMatch ⟨"w.js"⟩ "g" 2) ∧
      ∃ e, ofText true ["h"] .typescript ⟨"w.js"⟩ repeatedText = .ok e ∧
        ofText false ["h"] .typescript ⟨"w.js"⟩ repeatedText = .ok e := by
  have hcounts : (Dialect.parse .typescript repeatedText).map (fun tree =>
      ["h", "g", "f"].map (callCount repeatedText.toList tree)) = .ok [0, 2, 2] := by
    decide +kernel
  obtain ⟨tree, hparse, hcounts⟩ := eq_ok_of_map hcounts
  obtain ⟨hh, hg, -⟩ : callCount repeatedText.toList tree "h" = 0 ∧
      callCount repeatedText.toList tree "g" = 2 ∧ callCount repeatedText.toList tree "f" = 2 := by
    simpa using hcounts
  obtain ⟨-, hfails, -⟩ :=
    strict_agrees_with_first_match ["h", "g", "f"] .typescript ⟨"w.js"⟩ repeatedText
  obtain ⟨hagrees, -, -⟩ := strict_agrees_with_first_match ["h"] .typescript ⟨"w.js"⟩ repeatedText
  have hambiguous := hfails tree ["h"] "g" ["f"] hparse rfl (by simp [hh]) (by simp [hg])
  rw [hg] at hambiguous
  obtain ⟨e, he⟩ := ofTree_lenient ["h"] repeatedText.toList ⟨"w.js"⟩ tree
  have hlenient := (ofText_eq hparse false ["h"] ⟨"w.js"⟩).trans he
  refine ⟨tree, hparse, hcounts, hambiguous, e, (hagrees e).mpr ⟨hlenient, ?_⟩, hlenient⟩
  intro tree' hparse' n hn
  obtain rfl := Except.ok.inj (hparse.symm.trans hparse')
  rw [List.mem_singleton.mp hn, hh]
  exact Nat.zero_le 1

end Retarget.Extraction
