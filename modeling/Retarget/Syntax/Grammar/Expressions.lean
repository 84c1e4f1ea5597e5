import Retarget.Syntax.Grammar.Functions

/-!
# Expressions

Rules for expressions, from the loosest to the tightest: sequences, the
conditional, binary operators by level, unary operators, what is written behind
an operand, and atoms.  An assignment belongs to the operand on its left, so
`a + b = c` reads as `a + (b = c)`.  Type arguments bind like a comparison: in
`!f<T>(x)` they belong to `!f`, in `a || f<T>(x)` to `f`.
-/

namespace Retarget.Syntax.Form

open Rule

/-- The question mark of a conditional: neither the mark of an optional part
nor part of another operator. -/
def question : Part :=
  .lexeme .token fun cs =>
    match cs with
    | '?' :: '?' :: _ => none
    | '?' :: '.' :: c :: _ => if c.isDigit then some 1 else none
    | ['?', '.'] => none
    | '?' :: r =>
      match (r.dropWhile isPlainBlank).head? with
      | some ':' => none
      | some ')' => none
      | some ',' => none
      | _ => some 1
    | _ => none

/-- The binary operators with their levels and the characters that may not
follow them. -/
def binaryMarks : List (String × String × Nat) :=
  [("??", "=", 1), ("||", "=", 2), ("&&", "=", 3), ("|", "|=", 4), ("^", "=", 5),
   ("&", "&=", 6), ("===", "", 7), ("!==", "", 7), ("==", "=", 7), ("!=", "=", 7),
   ("<=", "", 8), (">=", "", 8), ("<", "<=", 8), (">", ">=", 8),
   (">>>", "=", 9), ("<<", "=", 9), (">>", ">=", 9),
   ("+", "+=", 10), ("-", "-=", 10), ("**", "=", 12), ("*", "*=", 11), ("/", "=", 11),
   ("%", "=", 11)]

/-- The binary operators that are words, with their levels. -/
def binaryWords : List (String × Nat) :=
  [("instanceof", 8), ("in", 8)]

/-- The marks of assignments that also compute. -/
def augmentedMarks : List String :=
  ["+=", "-=", "*=", "/=", "%=", "^=", "&=", "|=", ">>=", ">>>=", "<<=", "**=", "&&=", "||=",
   "??="]

/-- An expression: a chain of binary operators, perhaps as the condition of a
conditional.  After the question mark an arrow function names its result type
only if the colon of the conditional still follows. -/
def expressionRule (s : Setting) : Part :=
  let branch (typed : Bool) : Part := row
    [question, .role .consequence (.form (.expression ⟨false, typed, true⟩)), sign ":",
     .role .alternative (.form (.expression s))]
  .grow (.form (.binary s 0))
    (.around .ternaryExpression (some .condition) (.or_ (branch true) (branch false)))

/-- Expressions with commas between them. -/
def expressionsRule (s : Setting) : Part :=
  .grow (.form (.expression s))
    (.around .sequenceExpression none (.then_ (sign ",") (.form (.expression s))))

/-- The name after a point. -/
def memberName : Part :=
  .role .property (.or_ privateName (leaf .propertyIdentifier Lexeme.word))

/-- The mark of an optional link in a chain. -/
def optionalLink : Part :=
  .role .optionalChain (leaf .optionalChain fun cs =>
    match cs with
    | '?' :: '.' :: r => if ((r.head?).map Char.isDigit).getD false then none else some 2
    | _ => none)

/-- A member named behind an operand. -/
def memberStep : Part :=
  .around .memberExpression (some .object) (.then_ (.or_ (sign ".") optionalLink) memberName)

/-- A member computed behind an operand. -/
def subscriptStep : Part :=
  .around .subscriptExpression (some .object) (row
    [opt optionalLink, sign "[", .role .index (.form (.expressions .closed)), sign "]"])

/-- The claim that an operand is there. -/
def nonNullStep (s : Setting) : Part :=
  onLine s (.around .nonNullExpression none (mark "!" "="))

/-- A template applied to an operand. -/
def templateStep : Part :=
  .around .callExpression (some .function) (.role .arguments (.form .template))

/-- What can be written on the left of an assignment. -/
def isTarget (t : NodeType) : Bool :=
  t = .identifier || t = .undefinedLiteral || t = .memberExpression ||
    t = .subscriptExpression || t = .nonNullExpression || t = .parenthesizedExpression

/-- An arrow function. -/
def arrowFunction (s : Setting) : Part :=
  let name : Part := .role .parameter (leaf .identifier (Lexeme.wordExcept expressionWords))
  let parameters : Part := if s.typedArrow then signature else bareSignature
  let head : Part := any
    [row [word "async", .or_ name parameters, sign "=>"],
     row [.or_ name parameters, sign "=>"]]
  .node .arrowFunction (.then_ head (.role .body (any
    [.then_ (.where_ startsPair) (.form (.expression s)),
     .form .block, .form (.expression s)])))
where
  /-- Whether a text starts with a brace and a name with a colon. -/
  startsPair (cs : List Char) : Bool :=
    match Lexeme.afterGaps cs.length cs with
    | '\x7b' :: r =>
      let t := Lexeme.afterGaps r.length r
      match Lexeme.word t with
      | some n => nextChar (t.drop n) = some ':'
      | none => false
    | _ => false

/-- An assignment to the parts of an object or array. -/
def destructuringAssignment (s : Setting) : Part :=
  .node .assignmentExpression (row
    [.role .left (.or_ objectPattern arrayPattern), mark "=" "=>",
     .role .right (.form (.expression s))])

/-- What is written behind an operand, apart from assignments. -/
def behind (s : Setting) : List Part :=
  let call : Part := .around .callExpression (some .function)
    (.role .arguments (.form .arguments))
  let optionalCall : Part := .around .callExpression (some .function) (row
    [sign "?.", opt (.role .typeArguments (.form .typeArguments)),
     .role .arguments (.form .arguments)])
  let update (spelling : String) : Part := onLine s (.around .updateExpression
    (some .argument) (.role .operator (sign spelling)))
  [call, memberStep, subscriptStep, optionalCall, templateStep, nonNullStep s,
   update "++", update "--"]

/-- Type arguments behind an operand: of a call, of a template, or alone. -/
def typeArgumentSteps (s : Setting) : List Part :=
  let given : Part := .role .typeArguments (.form .typeArguments)
  if s.typeArguments then
    [.around .callExpression (some .function)
       (.then_ given (.role .arguments (.or_ (.form .arguments) (.form .template)))),
     .around .instantiationExpression none (.then_ given (.where_ fun cs =>
       match nextChar cs with
       | none => true
       | some c => ")]\x7d,;:=".toList.contains c))]
  else []

/-- An operand with what is written behind it. -/
def operandRule (d : Dialect) (s : Setting) : Part :=
  let assign : Part := .then_ (.after isTarget) (any
    [.around .assignmentExpression (some .left)
       (.then_ (mark "=" "=>") (.role .right (.form (.expression s)))),
     .around .augmentedAssignmentExpression (some .left)
       (.then_ (.role .operator (any (augmentedMarks.map sign)))
         (.role .right (.form (.expression s))))])
  let markup : Part :=
    match d with
    | .typescript => .never
    | .tsx => .form .element
  .grow (any [arrowFunction s, destructuringAssignment s, .form .atom, markup])
    (any (behind s ++ [assign] ++ typeArgumentSteps s))

/-- The steps behind an operator and its operands: type arguments, and what
follows the call that they belong to. -/
def lateSteps (s : Setting) : List Part :=
  let operators : List NodeType := [.unaryExpression, .awaitExpression, .binaryExpression]
  if s.typeArguments then
    [.then_ (.after fun t => operators.contains t) (any (typeArgumentSteps s)),
     .then_ (.after fun t => t = .callExpression || t = .memberExpression ||
       t = .subscriptExpression) (any (behind s))]
  else []

/-- An operand with the unary operators before it. -/
def unaryRule (d : Dialect) (s : Setting) : Part :=
  let operator (o : Part) : Part := .node .unaryExpression
    (.then_ (.role .operator o) (.role .argument (.form (.unary s.tight))))
  let update (spelling : String) : Part := .node .updateExpression
    (.then_ (.role .operator (sign spelling)) (.role .argument (.form (.unary s.tight))))
  let assertion : Part :=
    match d with
    | .typescript =>
      .node .typeAssertion (.then_ (.form .typeArguments) (.form (.unary s)))
    | .tsx => .never
  let head : Part := any
    [update "++", update "--",
     operator (mark "!" ""), operator (sign "~"), operator (mark "-" "-="),
     operator (mark "+" "+="), operator (word "typeof"), operator (word "void"),
     operator (word "delete"),
     .node .awaitExpression (.then_ (word "await") (.form (.unary s.tight))),
     .node .yieldExpression (.then_ (word "yield") (any
       [.then_ (sign "*") (.form (.expression s)),
        onLine s (.form (.expression s)), .nothing])),
     .form (.operand s), assertion]
  .grow head (any (lateSteps s))

/-- A chain of binary operators of at least the given level. -/
def binaryRule (s : Setting) (level : Nat) : Part :=
  let step (operator : Part) (n : Nat) : Part :=
    if n < level then .never
    else .around .binaryExpression (some .left)
      (.then_ (.role .operator operator)
        (.role .right (.form (.binary (if 8 ≤ n then s.tight else s) (n + 1)))))
  let cast (t : NodeType) (spelling : String) : Part :=
    if 8 < level then .never
    else onLine s (.around t none (.then_ (word spelling)
      (.or_ (.then_ (word "const") (.unless (sign "."))) (.form .type_))))
  .grow (.form (.unary s)) (any
    (binaryMarks.map (fun row => step (mark row.1 row.2.1) row.2.2) ++
     binaryWords.map (fun row => step (word row.1) row.2) ++
     [cast .asExpression "as", cast .satisfiesExpression "satisfies"] ++ lateSteps s))

/-- An object. -/
def objectRule : Part :=
  let member : Part := any
    [.node .spreadElement (.then_ (sign "...") (.form (.expression .closed))),
     .node .pair (row [.role .key (.form .propertyName), sign ":",
       .role .value (.form (.expression .closed))]),
     method,
     leaf .shorthandPropertyIdentifier Lexeme.word]
  .node .object (row [sign "\x7b", sparse member, sign "\x7d"])

/-- An item of an array or argument list. -/
def item : Part :=
  .or_ (.node .spreadElement (.then_ (sign "...") (.form (.expression .closed))))
    (.form (.expression .closed))

/-- An array. -/
def arrayRule : Part :=
  .node .array (row [sign "[", sparse item, sign "]"])

/-- The arguments of a call. -/
def argumentsRule : Part :=
  .node .arguments (row [sign "(", sparse item, sign ")"])

/-- A template string. -/
def templateRule : Part :=
  .node .templateString (row [sign "\x60",
    .many (any
      [.glued (.named .stringFragment) Lexeme.templateChars,
       .glued (.named .escapeSequence) Lexeme.escape,
       .node .templateSubstitution (row [.glued .token (Lexeme.spelled "$\x7b".toList),
         .form (.expressions .closed), sign "\x7d"])]),
    .glued .token (Lexeme.spelled ['\x60'])])

/-- What `new` constructs: an atom with members behind it, but no call. -/
def constructionRule : Part :=
  .grow (.form .atom) (any [memberStep, subscriptStep, nonNullStep .closed, templateStep])

/-- An atom: a name, a literal, a function, a class, or something in brackets. -/
def atomRule : Part :=
  let keyword (t : NodeType) (spelling : String) : Part :=
    leaf t (Lexeme.keyword spelling.toList)
  any
    [.node .newExpression (row [word "new", .role .constructorName (.form .construction),
       opt (.role .typeArguments (.form .typeArguments)),
       opt (.role .arguments (.form .arguments))]),
     functionExpression,
     identifier,
     .form .object, .form .array, string, number, .form .template,
     .node .parenthesizedExpression (row [sign "(", .form (.expressions .closed),
       opt (.role .typeOf typeMark), sign ")"]),
     regex,
     keyword .thisKeyword "this", keyword .superKeyword "super",
     keyword .nullLiteral "null", keyword .undefinedLiteral "undefined",
     keyword .trueLiteral "true", keyword .falseLiteral "false",
     classExpression,
     .node .metaProperty (row [word "new", sign ".", word "target"]),
     .node .metaProperty (row [word "import", sign ".", word "meta"]),
     .then_ (keyword .importKeyword "import") (.ahead (.or_ (sign "(") (sign "."))),
     .then_ privateName (.ahead (word "in"))]

end Retarget.Syntax.Form
