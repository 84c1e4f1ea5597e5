import Retarget.Syntax.Grammar.Markup
import Retarget.Syntax.Grammar.Statements

/-!
# The grammar of programs

`programs` gives every form its rule, for either dialect.
-/

namespace Retarget.Syntax

open Form

/-- The grammar of a dialect. -/
def programs (d : Dialect) : Grammar Form
  | .program => programRule
  | .statement => statementRule
  | .block => blockRule
  | .declaration => declarationRule
  | .expressions s => expressionsRule s
  | .expression s => expressionRule s
  | .binary s n => binaryRule s n
  | .unary s => unaryRule d s
  | .operand s => operandRule d s
  | .atom => atomRule
  | .construction => constructionRule
  | .template => templateRule
  | .arguments => argumentsRule
  | .object => objectRule
  | .array => arrayRule
  | .pattern => patternRule
  | .propertyName => propertyNameRule
  | .parameters => parametersRule
  | .classBody => classBodyRule
  | .decorator => decoratorRule
  | .type_ => typeRule
  | .unionType => unionTypeRule
  | .prefixedType => prefixedTypeRule
  | .primaryType => primaryTypeRule
  | .objectType => .node .objectType typeMembers
  | .typeArguments => typeArgumentsRule
  | .typeParameters => typeParametersRule
  | .element => elementRule
  | .markupExpression => markupExpressionRule

/-- What reading a whole text gives: its statements, or the furthest byte at
which a lexeme was wanted in vain. -/
def readProgram (d : Dialect) (cs : List Char) : Except Nat (List Node) :=
  let start := Place.start cs
  match (programs d).read (32 * start.room + 64) .program start with
  | .error m => .error m
  | .ok (ns, p) =>
    let (comments, q) := p.skipGaps p.room
    if q.rest = [] then .ok (ns ++ comments) else .error (max q.reach q.pos)

end Retarget.Syntax
