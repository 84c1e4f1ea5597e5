import Retarget.Syntax.Grammar.Types

/-!
# Functions, classes and patterns

Rules for what binds names: patterns, parameters, functions and classes.
-/

namespace Retarget.Syntax.Form

open Rule

/-- A name on the left of an assignment, with its path. -/
def targetPath : Part :=
  .grow (any [leaf .thisKeyword (Lexeme.keyword "this".toList),
      leaf .superKeyword (Lexeme.keyword "super".toList),
      leaf .undefinedLiteral (Lexeme.keyword "undefined".toList), identifier])
    (any
      [.around .memberExpression (some .object) (row
        [sign ".", .role .property
          (.or_ privateName (leaf .propertyIdentifier Lexeme.word))]),
       .around .subscriptExpression (some .object) (row
        [sign "[", .role .index (.form (.expressions .closed)), sign "]"]),
       .around .nonNullExpression none (mark "!" "=")])

/-- A pattern with the value it takes when there is none. -/
def patternWithDefault : Part :=
  .grow (.form .pattern) (.around .assignmentPattern (some .left)
    (.then_ (mark "=" "=>") (.role .right (.form (.expression .closed)))))

/-- A pattern that takes an object apart. -/
def objectPattern : Part :=
  let shorthand : Part := leaf .shorthandPropertyIdentifierPattern Lexeme.word
  let member : Part := any
    [.node .restPattern (.then_ (sign "...") (.form .pattern)),
     .node .pairPattern (row [.role .key (.form .propertyName), sign ":",
       .role .value patternWithDefault]),
     .grow shorthand (.around .objectAssignmentPattern (some .left)
       (.then_ (mark "=" "=>") (.role .right (.form (.expression .closed)))))]
  .node .objectPattern (row [sign "\x7b", sparse member, sign "\x7d"])

/-- A pattern that takes an array apart. -/
def arrayPattern : Part :=
  .node .arrayPattern (row [sign "[", sparse patternWithDefault, sign "]"])

/-- A pattern. -/
def patternRule : Part :=
  any [.node .restPattern (.then_ (sign "...") (.form .pattern)),
    objectPattern, arrayPattern, targetPath]

/-- The name or pattern that a declaration binds. -/
def binding : Part :=
  any [objectPattern, arrayPattern, boundName]

/-- A parameter with its qualifiers, type and default. -/
def parameter : Part :=
  let qualifier : Part := any
    [.node .accessibilityModifier
      (any [modifier "public", modifier "private", modifier "protected"]),
     .node .overrideModifier (modifier "override"), modifier "readonly"]
  let name : Part := .role .pattern (any
    [.node .restPattern (.then_ (sign "...") (any [objectPattern, arrayPattern, targetPath])),
     objectPattern, arrayPattern,
     leaf .thisKeyword (Lexeme.keyword "this".toList), boundName])
  let head : Part := row
    [.many (.role .decorator (.form .decorator)),
     .many qualifier, name]
  let tail : Part := row [opt (.role .typeOf typeMark), opt (initializer .closed)]
  any [.node .optionalParameter (row [head, sign "?", tail]),
    .node .requiredParameter (row [head, tail])]

/-- The parameters of a function. -/
def parametersRule : Part :=
  .node .formalParameters (row [sign "(", opt (commaList parameter), sign ")"])

/-- A name of a member. -/
def propertyNameRule : Part :=
  any [string, number,
    .node .computedPropertyName (row [sign "[", .form (.expression .closed), sign "]"]),
    privateName, leaf .propertyIdentifier Lexeme.word]

/-- A method with its body. -/
def method : Part :=
  .node .methodDefinition (row [methodQualifiers, .role .name (.form .propertyName),
    opt (sign "?"), signature, .role .body (.form .block)])

/-- A function as an expression; its name may be missing. -/
def functionExpression : Part :=
  let tail : Part := row [opt (.role .name boundName), signature, .role .body (.form .block)]
  any
    [.node .generatorFunction (row [opt (word "async"), word "function", sign "*", tail]),
     .node .functionExpression (row [opt (word "async"), word "function", tail])]

/-- A function as a declaration. -/
def functionDeclaration : Part :=
  let tail : Part := row [.role .name boundName, signature, .role .body (.form .block)]
  any
    [.node .generatorFunctionDeclaration
      (row [opt (word "async"), word "function", sign "*", tail]),
     .node .functionDeclaration (row [opt (word "async"), word "function", tail])]

/-- A function without its body. -/
def functionSignature : Part :=
  .node .functionSignature (row [opt (word "async"), word "function", .role .name boundName,
    signature, stopSignature])

/-- What a class extends and implements. -/
def classHeritage : Part :=
  let extended : Part := .then_ (.role .value (.form (.operand .closed)))
    (opt (.role .typeArguments (.form .typeArguments)))
  let extendsPart : Part := .node .extendsClause
    (.then_ (word "extends") (sepBy1 (sign ",") extended))
  let implementsPart : Part := .node .implementsClause
    (.then_ (word "implements") (sepBy1 (sign ",") (.form .type_)))
  .node .classHeritage (.or_ (.then_ extendsPart (opt implementsPart)) implementsPart)

/-- A decorator. -/
def decoratorRule : Part :=
  let path : Part := .grow identifier (.around .memberExpression (some .object)
    (.then_ (sign ".") (.role .property (leaf .propertyIdentifier Lexeme.word))))
  .node .decorator (.then_ (sign "@") (any
    [.node .parenthesizedExpression (row [sign "(", .form (.expressions .closed), sign ")"]),
     .grow path (.around .callExpression (some .function)
       (.then_ (opt (.role .typeArguments (.form .typeArguments)))
         (.role .arguments (.form .arguments))))]))

/-- A class as an expression; its name may be missing. -/
def classExpression : Part :=
  .node .classExpression (row [.many (.role .decorator (.form .decorator)), word "class",
    opt (.then_ (.unless (.or_ (word "extends") (word "implements"))) (.role .name typeName)),
    opt (.role .typeParameters (.form .typeParameters)), opt classHeritage,
    .role .body (.form .classBody)])

/-- A class as a declaration. -/
def classDeclaration : Part :=
  let tail : Part := row [word "class", .role .name typeName,
    opt (.role .typeParameters (.form .typeParameters)), opt classHeritage,
    .role .body (.form .classBody)]
  any
    [.node .classDeclaration (.then_ (.many (.role .decorator (.form .decorator))) tail),
     .node .abstractClassDeclaration
       (row [.many (.role .decorator (.form .decorator)), word "abstract", tail])]

/-- A field of a class. -/
def classField : Part :=
  row
    [.node .publicFieldDefinition (row
      [.many (.role .decorator (.form .decorator)), qualifiers,
       .role .name (.form .propertyName), opt (.or_ (sign "?") (mark "!" "=")),
       opt (.role .typeOf typeMark), opt (initializer .open_)]),
     .or_ (sign ",") (stop false)]

/-- A member of a class. -/
def classMember : Part :=
  any
    [sign ";",
     .node .classStaticBlock (.then_ (word "static") (.role .body (.form .block))),
     row [.many (.role .decorator (.form .decorator)), method, opt (sign ";")],
     row [.node .methodSignature (row [methodQualifiers, .role .name (.form .propertyName),
       opt (sign "?"), signature]), .or_ (sign ",") stopSignature],
     row [indexSignature, .or_ (sign ",") (stop false)],
     classField]

/-- The members of a class. -/
def classBodyRule : Part :=
  .node .classBody (row [sign "\x7b", .many classMember, sign "\x7d"])

end Retarget.Syntax.Form
