import Retarget.Proofs.Extraction.Entries
import Retarget.Proofs.Relocation.Normalizing

/-!
# Relocating what was extracted

A fragment is a stretch of the source that it was extracted from, and relocation reads it
a second time, in parentheses and as TypeScript.  A node of the first reading that the
second one shows in the same place covers the same text.  So a path literal of the source
that both readings show is relocated, and a fragment that has no second reading stays as
it was extracted.
-/

namespace Retarget.Relocation

open Syntax Extraction
open Place (bytes)

variable {strict : Bool} {callees keys : List String} {callee : String} {d : Dialect}
  {source root : Path} {text : String} {e : Extracted} {f : Fragment} {cs : List Char}
  {tree k v n n' : Node}

/-- The text of a fragment is a stretch of its source, unless it is empty. -/
theorem fragment_stretch (h : ofText strict callees d source text = .ok e)
    (htree : d.parseChars text.toList = .ok tree) (hf : (callee, some f) ∈ e.entries) :
    f.text = "" ∧ f.stop = f.start ∨ ∃ x y, text.toList = x ++ f.text.toList ++ y ∧ f.start = bytes x ∧
      f.stop = bytes x + bytes f.text.toList := by
  rw [ofText_eq htree] at h
  obtain ⟨-, hfragment⟩ := mem_entries h hf
  refine (fragment?_text hfragment.symm).imp_right ?_
  rintro ⟨a, ha, htext, hstart, hstop⟩
  have hplaced := ((placed_of_parseChars htree).below ha).1
  obtain ⟨x, b, y, hcs, hx, hb⟩ :=
    hplaced.start_cut.between hplaced.stop_cut hplaced.start_le_stop
  have hslice : f.text.toList = b := by
    rw [htext]
    exact textIn_toList hcs hx hb
  rw [hslice]
  exact ⟨x, y, hcs, hstart.trans hx, hstop.trans hb⟩

/-- A node of a fragment in parentheses that stands where a node of its source does. -/
def Mirrors (f : Fragment) (n n' : Node) : Prop :=
  n'.start + f.start = n.start + 1 ∧ n'.stop + f.start = n.stop + 1

/-- Nodes that stand in the same place cover the same text. -/
theorem textIn_of_mirrors {x t y : List Char} (hn : n.Placed (x ++ t ++ y)) (hf : f.start = bytes x)
    (hstart : f.start ≤ n.start) (hstop : n.stop ≤ f.start + bytes t) (h : Mirrors f n n') :
    n'.textIn ('(' :: t ++ [')']) = n.textIn (x ++ t ++ y) := by
  obtain ⟨a, b, c, hcs, ha, hb⟩ := hn.start_cut.between hn.stop_cut hn.start_le_stop
  -- what the node covers is a part of the fragment
  obtain ⟨a', rfl, hrest⟩ := exists_append_of_bytes_le
    ((List.append_assoc x t y).symm.trans (hcs.trans (List.append_assoc a b c)))
    (by omega)
  rw [bytes_append] at ha hb
  obtain ⟨c', ht, -⟩ := exists_append_of_bytes_le (a := a' ++ b) (b := c) (c := t) (d := y)
    (by rw [List.append_assoc]; exact hrest.symm) (by rw [bytes_append]; omega)
  have hone := bytes_parenthesis a'
  obtain ⟨hstart', hstop'⟩ := h
  apply String.toList_injective
  rw [textIn_toList (a := x ++ a') (b := b) (c := c) hcs (by rw [bytes_append]; exact ha)
    (by rw [bytes_append]; omega)]
  apply textIn_toList (a := '(' :: a') (c := c' ++ [')'])
  · rw [ht]
    simp
  · omega
  · omega

/-- A string stands behind its key. -/
theorem Valued.ordered (htree : tree.Placed cs) (h : Valued tree k v) :
    k.Placed cs ∧ v.Placed cs ∧ k.stop ≤ v.start := by
  obtain ⟨hmem, -⟩ := h.string
  obtain ⟨pair, hpair, -, before, rest, hchildren, -, -, holder, hholder, -, -, hv⟩ := h
  have hrow := (htree.below hpair).1.children
  rw [hchildren] at hrow
  obtain ⟨-, hk, hrest⟩ := Node.row_split hrow
  obtain ⟨hle, hplaced, -⟩ := Node.row_of_mem hrest hholder
  refine ⟨hk, (htree.below hmem).1, ?_⟩
  rcases hv with rfl | ⟨-, hv⟩
  · exact hle
  · obtain ⟨hinside, -, -⟩ := Node.row_of_mem hplaced.children hv
    omega

/-- Relocation from the workspace to a project.  A fragment that cannot be read a second
time stays as it is; otherwise every path literal of the source inside the fragment that
the second reading shows, too, is relocated. -/
theorem extracted_literals_relocate (he : ofText strict callees d source text = .ok e)
    (hf : (callee, some f) ∈ e.entries) (htree : d.parseChars text.toList = .ok tree)
    (hroot : root.resolve.isSome) :
    (∀ failure, Dialect.typescript.parseChars ('(' :: f.text.toList ++ [')']) = .error failure →
      normalize keys f ⟨""⟩ root = ⟨f, [], []⟩) ∧
    ∀ again, Dialect.typescript.parseChars ('(' :: f.text.toList ++ [')']) = .ok again →
      ∀ k v q literal, Valued tree k v → PathLiteral keys text.toList k v q literal →
        f.start ≤ k.start → v.stop ≤ f.stop →
          ∀ k' v', Valued again k' v' → Mirrors f k k' → Mirrors f v v' →
            Relocates ⟨""⟩ root f (normalize keys f ⟨""⟩ root) (v.start - f.start) q literal := by
  constructor
  · intro failure hagain
    exact normalize_of_error hagain
  · intro again hagain k v q literal hv hliteral hfrom hto k' v' hv' hk' hvv'
    obtain ⟨hkplaced, hvplaced, horder⟩ := hv.ordered (placed_of_parseChars htree)
    have hkle := hkplaced.start_le_stop
    have hvlt := start_lt_stop hvplaced hliteral.quoted
    rcases fragment_stretch he htree hf with ⟨-, hempty⟩ | ⟨x, y, htext, hstart, hstop⟩
    · omega
    · have hkey : k'.textIn ('(' :: f.text.toList ++ [')']) = k.textIn text.toList := by
        rw [htext] at hkplaced ⊢
        exact textIn_of_mirrors hkplaced hstart hfrom (by omega) hk'
      have hvalue : v'.textIn ('(' :: f.text.toList ++ [')']) = v.textIn text.toList := by
        rw [htext] at hvplaced ⊢
        exact textIn_of_mirrors hvplaced hstart (by omega) (by omega) hvv'
      have hliteral' : PathLiteral keys ('(' :: f.text.toList ++ [')']) k' v' q literal :=
        ⟨hkey ▸ hliteral.listed, hvalue ▸ hliteral.quoted, hliteral.relocatable⟩
      have hat : v.start - f.start = v'.start - 1 := by
        have := hvv'.1
        omega
      rw [hat]
      exact relocates_of_parse hagain hroot hv' hliteral'

/-! ## Two configs -/

/-- Whether a text reads as a tree with a path literal over given bytes, under a key over
given bytes. -/
def readsLiteral (d : Dialect) (keys : List String) (cs : List Char) (key value : Nat × Nat)
    (q : Char) (literal : List Char) : Bool :=
  match d.parseChars cs with
  | .error _ => false
  | .ok tree => tree.preorder.any fun n => (stringPair.matchNode cs n).any fun c =>
    match c.map Prod.snd with
    | [k, v] => (k.start, k.stop) = key && (v.start, v.stop) = value &&
      keys.contains (String.ofList (unquote (k.textIn cs).toList)) &&
      splitLiteral (v.textIn cs).toList = some (q, literal) && isRelocatable literal
    | _ => false

theorem exists_of_readsLiteral {key value : Nat × Nat} {q : Char} {literal : List Char}
    (h : readsLiteral d keys cs key value q literal = true) :
    ∃ tree k v, d.parseChars cs = .ok tree ∧ Valued tree k v ∧ PathLiteral keys cs k v q literal ∧
      k.start = key.1 ∧ k.stop = key.2 ∧ v.start = value.1 ∧ v.stop = value.2 := by
  unfold readsLiteral at h
  split at h
  · cases h
  · next tree htree =>
    obtain ⟨n, hn, hany⟩ := List.any_eq_true.mp h
    obtain ⟨c, hc, htest⟩ := List.any_eq_true.mp hany
    have hmem : ∃ p ∈ [stringPair, arrayPair], ∃ n ∈ tree.preorder, c ∈ p.matchNode cs n :=
      ⟨stringPair, List.mem_cons_self, n, hn, hc⟩
    obtain ⟨k, v, hv, rfl⟩ := mem_found.mp ((Query.mem_runAll _).mpr hmem)
    simp only [List.map_cons, List.map_nil, Bool.and_eq_true, decide_eq_true_eq] at htest
    obtain ⟨⟨⟨⟨rfl, rfl⟩, hlisted⟩, hquoted⟩, hrelocatable⟩ := htest
    exact ⟨tree, k, v, htree, hv, ⟨hlisted, hquoted, hrelocatable⟩, rfl, rfl, rfl, rfl⟩

/-- A config without markup. -/
def plainSource : String :=
  "withNx(\x7b main: 'a/m.js' \x7d);\n"

/-- The fragment of a config without markup. -/
def plainFragment : Fragment :=
  ⟨"withNx", "\x7b main: 'a/m.js' \x7d", ⟨"a/w.js"⟩, 7, 25, 1⟩

/-- Relocation moves the path of a config without markup. -/
theorem extracted_literals_relocate_plain :
    ∃ tree again k v k' v',
      ofText false ["withNx"] .typescript ⟨"a/w.js"⟩ plainSource =
        .ok ⟨[("withNx", some plainFragment)]⟩ ∧
      Dialect.typescript.parseChars plainSource.toList = .ok tree ∧
      (Path.mk "a").resolve.isSome ∧
      Dialect.typescript.parseChars ('(' :: plainFragment.text.toList ++ [')']) = .ok again ∧
      Valued tree k v ∧
      PathLiteral defaultKeys plainSource.toList k v '\'' "a/m.js".toList ∧
      plainFragment.start ≤ k.start ∧ v.stop ≤ plainFragment.stop ∧
      Valued again k' v' ∧ Mirrors plainFragment k k' ∧ Mirrors plainFragment v v' ∧
      Relocates ⟨""⟩ ⟨"a"⟩ plainFragment (normalize defaultKeys plainFragment ⟨""⟩ ⟨"a"⟩)
        (v.start - plainFragment.start) '\'' "a/m.js".toList := by
  have hfirst : readsLiteral .typescript defaultKeys plainSource.toList (9, 13)
      (15, 23) '\'' "a/m.js".toList = true := by
    decide +kernel
  have hsecond : readsLiteral .typescript defaultKeys ('(' :: plainFragment.text.toList ++ [')'])
      (3, 7) (9, 17) '\'' "a/m.js".toList = true := by
    decide +kernel
  obtain ⟨tree, k, v, htree, hv, hliteral, hk1, hk2, hv1, hv2⟩ := exists_of_readsLiteral hfirst
  obtain ⟨again, k', v', hagain, hv', -, hk1', hk2', hv1', hv2'⟩ := exists_of_readsLiteral hsecond
  have he : ofText false ["withNx"] .typescript ⟨"a/w.js"⟩ plainSource =
      .ok ⟨[("withNx", some plainFragment)]⟩ := by
    decide +kernel
  have hroot : (Path.mk "a").resolve.isSome := by decide +kernel
  have hk : Mirrors plainFragment k k' := by
    rw [Mirrors, hk1, hk2, hk1', hk2']
    decide
  have hvv : Mirrors plainFragment v v' := by
    rw [Mirrors, hv1, hv2, hv1', hv2']
    decide
  have hfrom : plainFragment.start ≤ k.start := by
    rw [hk1]
    decide
  have hto : v.stop ≤ plainFragment.stop := by
    rw [hv2]
    decide
  obtain ⟨-, hmoves⟩ := extracted_literals_relocate he List.mem_cons_self htree hroot
  have hmoved := hmoves again hagain k v '\'' "a/m.js".toList hv hliteral hfrom hto k' v' hv' hk hvv
  exact ⟨tree, again, k, v, k', v', he, htree, hroot, hagain, hv, hliteral, hfrom, hto, hv', hk, hvv,
    hmoved⟩

/-- Nothing is respelled where there are no quotes. -/
theorem rewritten_eq {old new : Path} {a b : List Char} (h : Rewritten (Respelled old new) a b)
    (hone : '\'' ∉ a) (htwo : '"' ∉ a) : b = a := by
  induction h with
  | nil => rfl
  | keep c rest ih =>
    rw [ih (fun h => hone (List.mem_cons_of_mem _ h)) fun h => htwo (List.mem_cons_of_mem _ h)]
  | replace related rest ih =>
    obtain ⟨q, literal, moved, hq, rfl, -, -⟩ := related
    rcases hq with rfl | rfl
    · exact absurd (List.mem_append_left _ List.mem_cons_self) hone
    · exact absurd (List.mem_append_left _ List.mem_cons_self) htwo

/-- A literal that stays as it is leads to the same place from both hosts if it was relocated,
unless there are other quotes. -/
theorem same_place_of_unchanged {old new : Path} {x y : List Char} {q : Char} {literal : List Char}
    (htext : f.text.toList = x ++ (q :: literal ++ [q]) ++ y)
    (hx : '\'' ∉ x ∧ '"' ∉ x) (hy : '\'' ∉ y ∧ '"' ∉ y)
    (h : Relocates old new f ⟨f, [], []⟩ (bytes x) q literal) :
    (new.join ⟨String.ofList literal⟩).resolve = (old.join ⟨String.ofList literal⟩).resolve := by
  rcases h with ⟨hmem, -⟩ | ⟨before, after, before', moved, after', hparts, hat, hparts', hb, ha,
    hplace, -⟩
  · cases hmem
  · rw [htext, List.append_assoc x, List.append_assoc before] at hparts
    obtain ⟨rfl, hrest⟩ := append_inj_of_bytes_eq hparts hat.symm
    obtain rfl : y = after := List.append_cancel_left hrest
    rw [rewritten_eq hb hx.1 hx.2, rewritten_eq ha hy.1 hy.2, htext] at hparts'
    have hmiddle := List.append_cancel_left (List.append_cancel_right hparts')
    have hmoved := List.append_cancel_right (List.cons.inj hmiddle).2
    rw [hplace.symm, hmoved]

/-- A config with markup. -/
def markupSource : String :=
  "withNx(\x7b main: 'a/m.js', icon: <i/> \x7d);\n"

/-- The fragment of a config with markup. -/
def markupFragment : Fragment :=
  ⟨"withNx", "\x7b main: 'a/m.js', icon: <i/> \x7d", ⟨"a/w.jsx"⟩, 7, 37, 1⟩

/-- A config with markup is extracted, but its fragment has no reading as TypeScript.  Its
path stays as it is, and so it leads elsewhere from the project; nothing is reported. -/
theorem markup_not_relocated :
    ∃ tree k v,
      ofText false ["withNx"] .tsx ⟨"a/w.jsx"⟩ markupSource =
        .ok ⟨[("withNx", some markupFragment)]⟩ ∧
      Dialect.tsx.parseChars markupSource.toList = .ok tree ∧
      (Path.mk "a").resolve.isSome ∧ Valued tree k v ∧
      PathLiteral defaultKeys markupSource.toList k v '\''
        "a/m.js".toList ∧
      markupFragment.start ≤ k.start ∧ v.stop ≤ markupFragment.stop ∧
      ¬Relocates ⟨""⟩ ⟨"a"⟩ markupFragment (normalize defaultKeys markupFragment ⟨""⟩ ⟨"a"⟩)
        (v.start - markupFragment.start) '\'' "a/m.js".toList := by
  have hfirst : readsLiteral .tsx defaultKeys markupSource.toList
      (9, 13) (15, 23) '\'' "a/m.js".toList = true := by
    decide +kernel
  obtain ⟨tree, k, v, htree, hv, hliteral, hk1, hk2, hv1, hv2⟩ := exists_of_readsLiteral hfirst
  have he : ofText false ["withNx"] .tsx ⟨"a/w.jsx"⟩ markupSource =
      .ok ⟨[("withNx", some markupFragment)]⟩ := by
    decide +kernel
  have hunread : (readProgram .typescript
      ('(' :: markupFragment.text.toList ++ [')'])).toOption.isNone = true := by
    decide +kernel
  have hsame : normalize defaultKeys markupFragment ⟨""⟩ ⟨"a"⟩ = ⟨markupFragment, [], []⟩ := by
    cases hparse : Dialect.typescript.parseChars ('(' :: markupFragment.text.toList ++ [')']) with
    | error failure => exact normalize_of_error hparse
    | ok again =>
      obtain ⟨ns, hread, -⟩ := readProgram_of_parseChars hparse
      rw [hread] at hunread
      cases hunread
  have hroot : (Path.mk "a").resolve.isSome := by decide +kernel
  have hfrom : markupFragment.start ≤ k.start := by
    rw [hk1]
    decide
  have hto : v.stop ≤ markupFragment.stop := by
    rw [hv2]
    decide
  refine ⟨tree, k, v, he, htree, hroot, hv, hliteral, hfrom, hto, ?_⟩
  intro hrelocates
  have hat : v.start - markupFragment.start = bytes "\x7b main: ".toList := by
    rw [hv1]
    decide +kernel
  rw [hsame, hat] at hrelocates
  have htext : markupFragment.text.toList =
      "\x7b main: ".toList ++ ('\'' :: "a/m.js".toList ++ ['\'']) ++ ", icon: <i/> \x7d".toList := by
    decide +kernel
  have hplace := same_place_of_unchanged htext (by decide +kernel) (by decide +kernel) hrelocates
  exact absurd hplace (by decide +kernel)

end Retarget.Relocation
