import Retarget.Proofs.Syntax.Fuel
import Retarget.Proofs.Syntax.Programs

/-!
# Ranks of forms

Forms of the language do not enter each other in a circle before a character is taken:
`Form.rank` falls along the way from a program down to an atom, and every form that opens
with a mark has rank zero.  So the fuel that a program is read with is always enough, and
`accept_eq` gives the equation of every form (`ranked_programs`).
-/

namespace Retarget.Syntax

/-! ## Lexemes that take characters -/

namespace Lexeme

theorem takes_spelled {w : List Char} (hw : w ≠ []) : Takes (spelled w) := by
  intro cs n h
  unfold spelled at h
  split at h
  · next hbegins =>
    obtain rfl := Option.some.inj h
    have hlen := (List.isPrefixOf_iff_prefix.mp hbegins).length_le
    have hpos := List.length_pos_iff.mpr hw
    rw [List.length_drop]
    omega
  · cases h

/-- A scan that looks for a given spelling first. -/
theorem takes_of_spelled {w : List Char} {s : Scan} (hw : w ≠ [])
    (h : ∀ cs n, s cs = some n → spelled w cs = some n) : Takes s :=
  fun cs n hs => takes_spelled hw cs n (h cs n hs)

theorem spelled_of_mark {w stops cs : List Char} {n : Nat} (h : mark w stops cs = some n) :
    spelled w cs = some n := by
  obtain ⟨m, hm, hn⟩ := Option.bind_eq_some_iff.mp h
  split at hn
  · rw [hm, Option.some.inj hn]
  · split at hn
    · cases hn
    · rw [hm, Option.some.inj hn]

theorem spelled_of_keyword {w cs : List Char} {n : Nat} (h : keyword w cs = some n) :
    spelled w cs = some n := by
  unfold keyword at h
  split at h
  · next hboth =>
    obtain ⟨hbegins, -⟩ := by simpa using hboth
    unfold spelled
    rw [if_pos (by simpa using hbegins), ← h]
  · cases h

theorem takes_mark {w : List Char} (hw : w ≠ []) (stops : List Char) : Takes (mark w stops) :=
  takes_of_spelled hw fun _ _ => spelled_of_mark

theorem takes_keyword {w : List Char} (hw : w ≠ []) : Takes (keyword w) :=
  takes_of_spelled hw fun _ _ => spelled_of_keyword

end Lexeme

namespace Rule

variable {N : Type} {moving : N → Prop} {rank : N → Nat} {n : Nat}

@[simp]
theorem moves_sign {w : String} (hw : w ≠ "") : (sign w : Rule N).Moves moving :=
  Lexeme.takes_spelled (by simpa using hw)

@[simp]
theorem moves_mark {w : String} (hw : w ≠ "") (stops : String) :
    (mark w stops : Rule N).Moves moving :=
  Lexeme.takes_mark (by simpa using hw) _

@[simp]
theorem moves_word {w : String} (hw : w ≠ "") : (word w : Rule N).Moves moving :=
  Lexeme.takes_keyword (by simpa using hw)

@[simp]
theorem guarded_sign (w : String) : (sign w : Rule N).Guarded moving rank n :=
  trivial

@[simp]
theorem guarded_mark (w stops : String) : (mark w stops : Rule N).Guarded moving rank n :=
  trivial

@[simp]
theorem guarded_word (w : String) : (word w : Rule N).Guarded moving rank n :=
  trivial

@[simp]
theorem guarded_leaf (t : NodeType) (s : Scan) : (leaf t s : Rule N).Guarded moving rank n :=
  trivial

theorem guarded_any {rs : List (Rule N)} (h : ∀ r ∈ rs, r.Guarded moving rank n) :
    (any rs).Guarded moving rank n := by
  induction rs with
  | nil => trivial
  | cons r rs ih =>
    cases rs with
    | nil => exact h r List.mem_cons_self
    | cons r' rs =>
      exact ⟨h r List.mem_cons_self, ih fun x hx => h x (List.mem_cons_of_mem _ hx)⟩

end Rule

/-! ## Ranks -/

namespace Form

open Rule

/-- The rank of a form: above those of all forms that can stand at its head. -/
def rank : Form → Nat
  | program => 8
  | statement => 7
  | expressions _ => 6
  | expression _ => 5
  | binary _ _ => 4
  | unary _ => 3
  | operand _ => 2
  | construction => 2
  | atom => 1
  | declaration => 1
  | type_ => 4
  | unionType => 3
  | prefixedType => 2
  | primaryType => 1
  | _ => 0

/-- The form that stands at the head of another one of its own rank or above: a type
assertion is a unary expression that begins with type arguments. -/
def moving (x : Form) : Prop :=
  x = typeArguments

@[simp]
theorem moves_question : question.Moves moving := by
  refine Lexeme.takes_of_spelled (w := ['?']) (by simp) fun cs n h => ?_
  split at h
  · cases h
  · split at h
    · exact h
    · cases h
  · cases h
  · split at h
    · cases h
    · cases h
    · cases h
    · exact h
  · cases h

@[simp]
theorem guarded_question {n : Nat} : question.Guarded moving rank n :=
  trivial

theorem guarded_onLine (s : Setting) {r : Part} {n : Nat} (h : r.Guarded moving rank n) :
    (onLine s r).Guarded moving rank n := by
  unfold onLine
  split
  · exact ⟨trivial, .inr h⟩
  · exact h

theorem guarded_lateSteps (s : Setting) (n : Nat) :
    ∀ r ∈ lateSteps s, r.Guarded moving rank (n + 1) := by
  obtain ⟨a, b, c⟩ := s
  cases a <;> cases c <;>
    simp [lateSteps, rank, moving, any, row, opt, onLine, typeArgumentSteps, behind, memberStep,
      subscriptStep, nonNullStep, templateStep, optionalLink, memberName, privateName]

theorem guarded_of_binaryStep {s : Setting} {r : Part} (h : BinaryStep s r) :
    r.Guarded moving rank 4 := by
  have hmark : ∀ row ∈ binaryMarks, row.1 ≠ "" := by decide
  have hword : ∀ row ∈ binaryWords, row.1 ≠ "" := by decide
  cases h with
  | never => trivial
  | marked hrow _ => simp [hmark _ hrow]
  | worded hrow _ => simp [hword _ hrow]
  | cast h =>
    refine guarded_onLine s ?_
    rcases eq_of_mem_casts h with ⟨rfl, rfl⟩ | ⟨rfl, rfl⟩
    · simp
    · simp
  | late hr => exact guarded_lateSteps s 3 _ hr

theorem guarded_programs (d : Dialect) (x : Form) :
    (programs d x).Guarded moving rank x.rank := by
  cases x with
  | program => simp [programs, programRule, rank, opt]
  | statement =>
    simp [programs, statementRule, rank, any, row, opt, bracedStatement, exportStatement,
      expressionStatement, importStatement, forInStatement, forStatement, switchStatement,
      tryStatement, jump, statementWords, labeledStatement, stop]
  | block => simp [programs, blockRule, row]
  | declaration =>
    simp [programs, declarationRule, rank, any, row, opt, functionDeclaration, functionSignature,
      classDeclaration, lexicalDeclaration, variableDeclaration, enumDeclaration,
      interfaceDeclaration, typeAlias, internalModule, importAlias, ambientDeclaration]
  | expressions s => simp [programs, expressionsRule, rank]
  | expression s => simp [programs, expressionRule, rank, row]
  | binary s level =>
    obtain ⟨steps, hrule, hsteps⟩ := exists_binarySteps s level
    rw [programs, hrule]
    exact ⟨by simp [rank], .inr (guarded_any fun r hr => guarded_of_binaryStep (hsteps r hr))⟩
  | unary s =>
    refine ⟨?_, .inr (guarded_any (guarded_lateSteps s 2))⟩
    cases d <;> simp [rank, moving, any]
  | operand s =>
    obtain ⟨a, b, c⟩ := s
    cases d <;> cases a <;> cases b <;> cases c <;>
      simp [programs, operandRule, rank, any, row, opt, arrowFunction, destructuringAssignment,
        objectPattern, arrayPattern, behind, memberStep, subscriptStep, nonNullStep, templateStep,
        typeArgumentSteps, augmentedMarks, onLine, optionalLink, memberName, privateName, signature,
        bareSignature, resultType, typeMark]
  | atom =>
    simp [programs, atomRule, rank, any, row, opt, functionExpression, identifier, string, number,
      regex, classExpression, privateName]
  | construction =>
    simp [programs, constructionRule, rank, any, row, opt, memberStep, subscriptStep, nonNullStep,
      templateStep, optionalLink, memberName, privateName, onLine, Setting.closed]
  | template => simp [programs, templateRule, row]
  | arguments => simp [programs, argumentsRule, row]
  | object => simp [programs, objectRule, row]
  | array => simp [programs, arrayRule, row]
  | pattern =>
    simp [programs, patternRule, any, row, objectPattern, arrayPattern, targetPath, identifier]
  | propertyName => simp [programs, propertyNameRule, any, row, string, number, privateName]
  | parameters => simp [programs, parametersRule, row]
  | classBody => simp [programs, classBodyRule, row]
  | decorator => simp [programs, decoratorRule]
  | type_ => simp [programs, typeRule, rank, row]
  | unionType => simp [programs, unionTypeRule, rank, any, row, opt, typeOperand, bareSignature]
  | prefixedType => simp [programs, prefixedTypeRule, rank, any, row]
  | primaryType =>
    simp [programs, primaryTypeRule, rank, any, row, literalType, string, number, templateType,
      importedType, typeQuery, namedType, boundName, typeName]
  | objectType => simp [programs, typeMembers, row]
  | typeArguments => simp [programs, typeArgumentsRule, row]
  | typeParameters => simp [programs, typeParametersRule, row]
  | element => simp [programs, elementRule, row]
  | markupExpression => simp [programs, markupExpressionRule, row]

theorem ranked_programs (d : Dialect) : (programs d).Ranked moving rank where
  moves := by
    rintro x rfl
    simp [programs, typeArgumentsRule, row]
  guarded := guarded_programs d
  small := by
    intro x
    cases x <;> simp [rank]

end Form

end Retarget.Syntax
