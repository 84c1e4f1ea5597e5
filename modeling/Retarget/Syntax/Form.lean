import Retarget.Syntax.Rule

/-!
# Forms of the language

`Form` names the parts of a program that rules refer to, and the rules that
all of them share stand here: names, literals, lists and the end of a
statement.

A statement ends at a semicolon, at a closing brace, at the end of the text,
or at a line break that the next lexeme does not bridge (`endsStatement`).
-/

namespace Retarget.Syntax

/-- The two dialects: plain TypeScript, with type assertions in angle brackets,
and TSX, with markup in their place. -/
inductive Dialect where
  | typescript
  | tsx
  deriving DecidableEq, Repr

/-- Where an expression stands: whether a line break may end the statement it
is part of, whether an arrow function may name its result type, and whether
type arguments may follow an operand. -/
structure Setting where
  endsAtLine : Bool
  typedArrow : Bool
  typeArguments : Bool

namespace Setting

/-- At the top of a statement. -/
def open_ : Setting := ⟨true, true, true⟩

/-- Between brackets. -/
def closed : Setting := ⟨false, true, true⟩

/-- Behind an operator that binds tighter than type arguments do. -/
def tight (s : Setting) : Setting := { s with typeArguments := false }

end Setting

/-- The parts of a program that rules refer to. -/
inductive Form where
  | program
  | statement
  | block
  | declaration
  | expressions (s : Setting)
  | expression (s : Setting)
  | binary (s : Setting) (level : Nat)
  | unary (s : Setting)
  | operand (s : Setting)
  | atom
  | construction
  | template
  | arguments
  | object
  | array
  | pattern
  | propertyName
  | parameters
  | classBody
  | decorator
  | type_
  | unionType
  | prefixedType
  | primaryType
  | objectType
  | typeArguments
  | typeParameters
  | element
  | markupExpression

namespace Form

/-- Rules over the forms of the language. -/
abbrev Part := Rule Form

open Rule

/-- Whether a character is an ASCII blank. -/
def isPlainBlank (c : Char) : Bool :=
  c == ' ' || (0x09 ≤ c.toNat && c.toNat ≤ 0x0D)

/-- Whether the word `in` or `instanceof` stands at the head of a text. -/
def isRelationWord (cs : List Char) : Bool :=
  let joins (w : List Char) : Bool :=
    w.isPrefixOf cs && !(((cs.drop w.length).head?.map Char.isAlpha).getD false)
  joins "in".toList || joins "instanceof".toList

/-- Whether a statement ends at a line break before this text.  `operand` says
that an operator could follow, `signature` that a body could. -/
def breakEnds (operand signature : Bool) (cs : List Char) : Bool :=
  match cs with
  | [] => true
  | '{' :: _ => !signature
  | '(' :: _ => !operand
  | '[' :: _ => !operand
  | '+' :: r => r.head? = some '+'
  | '-' :: r => r.head? = some '-'
  | '!' :: r => r.head? ≠ some '='
  | c :: _ => !("\x60,.;*%><=?^|&/:".toList.contains c) && !isRelationWord cs

/-- Skips plain blanks and comments; `n` bounds the number of comments. -/
def afterPlainGaps : Nat → List Char → List Char
  | 0, cs => cs
  | n + 1, cs =>
    let r := cs.dropWhile isPlainBlank
    match Lexeme.comment r with
    | some k => afterPlainGaps n (r.drop k)
    | none => r

/-- Whether a statement ends before this text without a semicolon; `n` bounds
the number of comments on the line. -/
def endsStatementWithin (operand signature : Bool) : Nat → List Char → Bool
  | 0, _ => false
  | n + 1, cs =>
    let r := cs.dropWhile fun c => isPlainBlank c && c != '\n'
    match r with
    | [] => true
    | '}' :: t => if (t.dropWhile isPlainBlank).head? = some ':' then operand else true
    | '\n' :: t => breakEnds operand signature (afterPlainGaps t.length t)
    | _ =>
      match Lexeme.comment r with
      | some k => endsStatementWithin operand signature n (r.drop k)
      | none => false

/-- Whether a statement ends before this text without a semicolon. -/
def endsStatement (operand signature : Bool) (cs : List Char) : Bool :=
  endsStatementWithin operand signature cs.length.succ cs

/-- The end of a statement. -/
def stop (operand : Bool) : Part :=
  .or_ (sign ";") (.where_ (endsStatement operand false))

/-- The end of a function that has no body. -/
def stopSignature : Part :=
  .or_ (sign ";") (.where_ (endsStatement false true))

/-- Whether no line break stands in the gap at the head of a text. -/
def sameLine (cs : List Char) : Bool :=
  !((cs.takeWhile Lexeme.isGap).contains '\n')

/-- A rule on the same line, where a line break would end the statement. -/
def onLine (s : Setting) (r : Part) : Part :=
  if s.endsAtLine then .then_ (.where_ sameLine) r else r

/-- The first character after the gaps and comments at the head of a text. -/
def nextChar (cs : List Char) : Option Char :=
  (Lexeme.afterGaps cs.length cs).head?

/-- Nothing, unless one of the given characters comes next. -/
def notBefore (stops : String) : Part :=
  .where_ fun cs =>
    match nextChar cs with
    | none => false
    | some c => !(stops.toList.contains c)

/-- A word that qualifies what follows, unless it is itself the name. -/
def modifier (spelling : String) : Part :=
  .then_ (word spelling) (notBefore "(=;:?!,\x7d<)")

/-- A list in which any place may stay empty. -/
def sparse (item : Part) : Part :=
  .then_ (opt item) (.many (.then_ (sign ",") (opt item)))

/-- A list of at least one item; a comma may close it. -/
def commaList (item : Part) : Part :=
  .then_ (sepBy1 (sign ",") item) (opt (sign ","))

/-- The words that are no identifiers where an expression may start. -/
def expressionWords : List (List Char) :=
  ["this", "super", "true", "false", "null", "undefined", "function", "class", "typeof",
   "void", "delete", "await", "yield", "import"].map String.toList

/-- The words that open a statement and are no identifiers there. -/
def statementWords : List String :=
  ["if", "for", "while", "do", "switch", "try", "return", "throw", "break", "continue",
   "debugger", "with", "var", "const", "interface", "enum", "abstract", "export"]

/-- An identifier where an expression may start. -/
def identifier : Part :=
  leaf .identifier (Lexeme.wordExcept expressionWords)

/-- A name that is bound; any word will do. -/
def boundName : Part :=
  leaf .identifier Lexeme.word

/-- The name of a type. -/
def typeName : Part :=
  leaf .typeIdentifier Lexeme.word

/-- A string. -/
def string : Part :=
  let quoted (q : Char) : Part :=
    row [sign (String.singleton q),
      .many (.or_ (.glued (.named .stringFragment) (Lexeme.stringChars q))
        (.glued (.named .escapeSequence) Lexeme.escape)),
      sign (String.singleton q)]
  .node .string (.or_ (quoted '\'') (quoted '"'))

/-- A number. -/
def number : Part :=
  leaf .number Lexeme.number

/-- A private name. -/
def privateName : Part :=
  leaf .privatePropertyIdentifier fun cs =>
    match cs with
    | '#' :: r => (Lexeme.word r).map (· + 1)
    | _ => none

/-- A regular expression with its flags. -/
def regex : Part :=
  .node .regex (row [sign "/",
    .role .pattern (.glued (.named .regexPattern) Lexeme.regexPattern),
    .glued .token (Lexeme.spelled ['/']),
    opt (.role .flags (.glued (.named .regexFlags) (Lexeme.run1 fun c => 'a' ≤ c && c ≤ 'z')))])

/-- The value that a name starts with. -/
def initializer (s : Setting) : Part :=
  .then_ (mark "=" "=>") (.role .value (.form (.expression s)))

/-- The type of a name, after a colon. -/
def typeMark : Part :=
  .node .typeMark (.then_ (sign ":") (.form .type_))

/-- A result type, which may be a claim about a parameter. -/
def resultType : Part :=
  let subject : Part := .or_ (leaf .thisKeyword (Lexeme.keyword "this".toList)) boundName
  let predicate : Part := .node .typePredicate
    (row [.role .name subject, word "is", .role .typeOf (.form .type_)])
  let claim : Part := .node .asserts
    (row [word "asserts", notBefore "=;\x7b\x7d,)>|&[.<", .or_ predicate subject])
  any [.node .assertsMark (.then_ (sign ":") claim),
    .node .typePredicateMark (.then_ (sign ":") predicate),
    typeMark]

/-- Type parameters, parameters and result type of a function. -/
def signature : Part :=
  row [opt (.role .typeParameters (.form .typeParameters)),
    .role .parameters (.form .parameters),
    opt (.role .returnType resultType)]

/-- Type parameters and parameters of a function that names no result type. -/
def bareSignature : Part :=
  row [opt (.role .typeParameters (.form .typeParameters)),
    .role .parameters (.form .parameters)]

end Form

end Retarget.Syntax
