import Retarget.Proofs.Relocation.Normalizing
import Retarget.Proofs.Syntax.Makers

/-!
# The pairs of a program

Only one rule of the language makes pairs, and it reads one name, a colon and an expression
(`keyed_of_parseChars`).  So a pair has at most one key, its key stands before its colon and
its value behind it, and a query for the strings that are values finds every string once:
what it finds in different places starts at different bytes (`pairwise_runAll`).
-/

namespace Retarget.Relocation

open Syntax

variable {cs : List Char} {tree n k v h : Node} {ns : List Node} {lo hi : Nat} {d : Dialect}
  {left : List Node} {p q : Place}

/-! ## The shape of a pair -/

/-- The nodes of a row that are no comments. -/
def solid (ns : List Node) : List Node :=
  ns.filter fun n => !n.is .comment

/-- The children of a pair: at most one key, a colon and a value.  Comments may stand between
them. -/
def Keyed (children : List Node) : Prop :=
  ∃ before colon after, children = before ++ colon :: after ∧ colon.kind = .token ∧
    colon.start < colon.stop ∧ (solid before).length ≤ 1 ∧
    (∀ n ∈ before, n.field = some .value → n.is .comment) ∧
    ∀ n ∈ after, n.field = some .key → n.is .comment

/-- The rule of a pair. -/
def pairRule : Form.Part :=
  .node .pair (Rule.row [.role .key (.form .propertyName), Rule.sign ":",
    .role .value (.form (.expression .closed))])

theorem makers_onLine (s : Setting) (r : Form.Part) (t : NodeType) :
    (Form.onLine s r).makers t = r.makers t := by
  unfold Form.onLine
  split
  · rfl
  · rfl

theorem makers_of_binaryStep {s : Setting} {r : Form.Part} (h : Form.BinaryStep s r) :
    r.makers .pair = [] := by
  cases h with
  | never => rfl
  | marked _ _ => rfl
  | worded _ _ => rfl
  | cast h =>
    rw [makers_onLine]
    rcases Form.eq_of_mem_casts h with ⟨rfl, rfl⟩ | ⟨rfl, rfl⟩
    · rfl
    · rfl
  | late hr =>
    have hlate : ∀ r ∈ Form.lateSteps s, (r.makers .pair).isEmpty = true := by
      rw [← List.all_eq_true]
      obtain ⟨a, b, c⟩ := s
      cases a <;> cases c <;> rfl
    exact List.isEmpty_iff.mp (hlate r hr)

/-- Pairs are made by one rule. -/
theorem makers_pair (d : Dialect) (x : Form) : ∀ m ∈ (programs d x).makers .pair, m = pairRule := by
  have none {r : Form.Part} (h : r.makers .pair = []) : ∀ m ∈ r.makers .pair, m = pairRule := by
    rw [h]
    intro m hm
    cases hm
  cases x with
  | object =>
    intro m hm
    -- the list of members reads its first member apart from the others
    have htwice : m ∈ [pairRule, pairRule] := hm
    simpa using htwice
  | binary s level =>
    obtain ⟨steps, hrule, hsteps⟩ := Form.exists_binarySteps s level
    intro m hm
    rw [programs, hrule] at hm
    obtain ⟨r, hr, hm⟩ := Rule.makers_any steps hm
    rw [makers_of_binaryStep (hsteps r hr)] at hm
    cases hm
  | unary s =>
    obtain ⟨a, b, c⟩ := s
    cases d <;> cases a <;> cases c <;> exact none rfl
  | operand s =>
    obtain ⟨a, b, c⟩ := s
    cases d <;> cases a <;> cases b <;> cases c <;> exact none rfl
  | program => exact none rfl
  | statement => exact none rfl
  | block => exact none rfl
  | declaration => exact none rfl
  | expressions s => exact none rfl
  | expression s => exact none rfl
  | atom => exact none rfl
  | construction => exact none rfl
  | template => exact none rfl
  | arguments => exact none rfl
  | array => exact none rfl
  | pattern => exact none rfl
  | propertyName => exact none rfl
  | parameters => exact none rfl
  | classBody => exact none rfl
  | decorator => exact none rfl
  | type_ => exact none rfl
  | unionType => exact none rfl
  | prefixedType => exact none rfl
  | primaryType => exact none rfl
  | objectType => exact none rfl
  | typeArguments => exact none rfl
  | typeParameters => exact none rfl
  | element => exact none rfl
  | markupExpression => exact none rfl

theorem solid_append (ns ms : List Node) : solid (ns ++ ms) = solid ns ++ solid ms :=
  List.filter_append _ _

theorem solid_skipGaps (n : Nat) (p : Place) : solid (p.skipGaps n).1 = [] := by
  refine List.filter_eq_nil_iff.mpr fun x hx => ?_
  simp [Node.is, (Place.comment_of_mem_skipGaps n p x hx).1]

theorem solid_assign (f : Field) (ns : List Node) :
    (solid (Rule.assign f ns)).length = (solid ns).length := by
  have hkind (n : Node) : (if n.is .comment then n else n.withField f).is .comment =
      n.is .comment := by
    rw [Node.is, Rule.kind_assigned, Node.is]
  simp [solid, Rule.assign, List.filter_map, Function.comp_def, hkind]

theorem field_of_mem_assign {f : Field} (hn : n ∈ Rule.assign f ns) (hsolid : ¬n.is .comment) :
    n.field = some f := by
  obtain ⟨m, -, rfl⟩ := List.mem_map.mp hn
  split at hsolid
  · next hcomment => exact absurd hcomment hsolid
  · next hcomment =>
    rw [if_neg hcomment]
    cases m
    rfl

/-- A rule that reads one node at most, apart from comments. -/
def isSingle {N : Type} : Rule N → Bool
  | .lexeme _ _ => true
  | .node _ _ => true
  | .or_ a b => isSingle a && isSingle b
  | _ => false

theorem length_solid_of_isSingle {N : Type} {enter : N → Place → Reading} {r : Rule N}
    (hr : isSingle r = true) (h : r.read enter left p = .ok (ns, q)) :
    (solid ns).length ≤ 1 := by
  induction r generalizing p ns q with
  | lexeme k scan =>
    obtain ⟨ms, hread, rfl⟩ := Rule.read_lexeme_ok h
    obtain ⟨-, -, -, rfl⟩ := Rule.readLexeme_ok hread
    rw [solid_append, solid_skipGaps, List.nil_append]
    exact List.length_filter_le _ _
  | node t a _ =>
    obtain ⟨ms, -, rfl⟩ := Rule.read_node_ok h
    have hbefore : solid (ms.takeWhile (·.is .comment)) = [] := by
      refine List.filter_eq_nil_iff.mpr fun x hx => ?_
      simp [List.mem_takeWhile_imp hx]
    unfold Rule.enclose Rule.splitComments
    rw [solid_append, hbefore, List.nil_append]
    exact List.length_filter_le _ _
  | or_ a b iha ihb =>
    obtain ⟨ha, hb⟩ : isSingle a = true ∧ isSingle b = true := by simpa [isSingle] using hr
    rcases Rule.read_or_ok h with hread | ⟨m, hread⟩
    · exact iha ha hread
    · exact ihb hb hread
  | _ => simp [isSingle] at hr

/-- A name of a member is one node. -/
theorem length_solid_propertyName {fuel : Nat}
    (h : (programs d).read fuel .propertyName p = .ok (ns, q)) : (solid ns).length ≤ 1 := by
  cases fuel with
  | zero => cases h
  | succ fuel => exact length_solid_of_isSingle (r := Form.propertyNameRule) rfl h

/-- A colon is read as a token that covers it. -/
theorem read_colon_ok {N : Type} {enter : N → Place → Reading}
    (h : (Rule.sign ":" : Rule N).read enter left p = .ok (ns, q)) :
    ∃ comments colon, ns = comments ++ [colon] ∧ solid comments = [] ∧ colon.kind = .token ∧
      colon.start < colon.stop := by
  obtain ⟨ms, hread, rfl⟩ := Rule.read_lexeme_ok h
  obtain ⟨k, hscan, rfl, rfl⟩ := Rule.readLexeme_ok hread
  refine ⟨_, _, rfl, solid_skipGaps _ _, rfl, ?_⟩
  unfold Lexeme.spelled at hscan
  split at hscan
  · next hbegins =>
    obtain rfl := Option.some.inj hscan
    obtain ⟨r, hr⟩ := List.isPrefixOf_iff_prefix.mp hbegins
    show (p.skipGaps p.room).2.pos < (p.skipGaps p.room).2.pos + Place.bytes _
    rw [← hr, List.take_left]
    have hone : 0 < Place.bytes ":".toList := by decide
    omega
  · cases hscan

/-- A pair has such children. -/
theorem keyed_of_read (fuel : Nat) : pairRule.Makes ((programs d).read fuel) .pair Keyed := by
  intro left p ns q h n hn his
  obtain ⟨ms, hread, rfl⟩ := Rule.read_node_ok h
  obtain ⟨keys, _, rest, hkey, hrest, rfl⟩ := Rule.read_then_ok hread
  obtain ⟨marks, _, values, hmark, hvalue, rfl⟩ := Rule.read_then_ok hrest
  obtain ⟨names, hname, rfl⟩ := Rule.read_role_ok hkey
  obtain ⟨held, -, rfl⟩ := Rule.read_role_ok hvalue
  obtain ⟨comments, colon, rfl, hcomments, hkind, hlt⟩ := read_colon_ok hmark
  have hcolon : colon.is .comment = false := by simp [Node.is, hkind]
  -- comments at the head of a pair stand before it
  have hchildren : n.children =
      ((Rule.assign .key names ++ comments).dropWhile (·.is .comment)) ++
        colon :: Rule.assign .value held := by
    rcases List.mem_append.mp hn with hbefore | hnode
    · have hcomment := List.mem_takeWhile_imp hbefore
      simp only [Node.is, decide_eq_true_eq] at hcomment his
      rw [hcomment] at his
      cases his
    · rw [List.mem_singleton.mp hnode]
      show List.dropWhile _ _ = _
      have hassoc : Rule.assign .key names ++ (comments ++ [colon] ++ Rule.assign .value held) =
          (Rule.assign .key names ++ comments) ++ colon :: Rule.assign .value held := by
        simp
      rw [hassoc, List.dropWhile_append]
      split
      · next hempty =>
        rw [List.isEmpty_iff.mp hempty, List.nil_append, List.dropWhile_cons, hcolon]
        rfl
      · rfl
  have hsub : (Rule.assign .key names ++ comments).dropWhile (·.is .comment) <:+
      Rule.assign .key names ++ comments :=
    List.dropWhile_suffix _
  refine ⟨_, colon, _, hchildren, hkind, hlt, ?_, ?_, ?_⟩
  · have hle := (hsub.sublist.filter fun n => !n.is .comment).length_le
    have hsolid : solid (Rule.assign .key names ++ comments) = solid (Rule.assign .key names) := by
      rw [solid_append, hcomments, List.append_nil]
    have hone := length_solid_propertyName hname
    rw [← solid_assign .key, ← hsolid] at hone
    exact Nat.le_trans hle hone
  · intro m hm hvalue
    by_contra hsolid
    rcases List.mem_append.mp (hsub.subset hm) with hm | hm
    · rw [field_of_mem_assign hm hsolid] at hvalue
      cases hvalue
    · exact List.filter_eq_nil_iff.mp hcomments m hm (by simpa using hsolid)
  · intro m hm hkey
    by_contra hsolid
    rw [field_of_mem_assign hm hsolid] at hkey
    cases hkey

/-- The pairs of a program have such children. -/
theorem keyed_of_parseChars (h : d.parseChars cs = .ok tree) :
    ∀ n ∈ tree.preorder, n.is .pair → Keyed n.children := by
  refine forall_of_parseChars (by decide) (by decide) ?_ h
  intro fuel x m hm
  rw [makers_pair d x m hm]
  exact keyed_of_read fuel

end Retarget.Relocation
