import Retarget.Syntax.Form

/-!
# Types

Rules for type expressions: unions and intersections bind weaker than the
prefix operators, these weaker than brackets behind a type, and function types
reach as far to the right as they can.
-/

namespace Retarget.Syntax.Form

open Rule

/-- The names of the types that the language provides. -/
def predefinedTypes : List String :=
  ["any", "number", "boolean", "string", "symbol", "void", "unknown", "never", "object"]

/-- A dotted name, as a value names it. -/
def dottedName (inner : Part) : Part :=
  .grow inner (.around .nestedIdentifier (some .object)
    (.then_ (sign ".") (.role .property (leaf .propertyIdentifier Lexeme.word))))

/-- A call of `import` where a type stands. -/
def importedType : Part :=
  .grow (.node .callExpression
      (.then_ (.role .function (leaf .importKeyword (Lexeme.keyword "import".toList)))
        (.role .arguments (.form .arguments))))
    (any [.around .memberExpression (some .object)
        (.then_ (sign ".") (.role .property (leaf .propertyIdentifier Lexeme.word))),
      .around .genericType (some .name) (.role .typeArguments (.form .typeArguments))])

/-- A type named by its path, with or without arguments. -/
def namedType : Part :=
  let plain : Part := any
    [.node .nestedTypeIdentifier (row
      [.role .moduleName (.grow (.then_ boundName (.ahead (sign ".")))
        (.around .nestedIdentifier (some .object)
          (row [sign ".", .role .property (leaf .propertyIdentifier Lexeme.word),
            .ahead (sign ".")]))),
       sign ".", .role .name typeName]),
     typeName]
  .grow plain (.then_ (.after fun t => t = .typeIdentifier || t = .nestedTypeIdentifier)
    (.around .genericType (some .name) (.role .typeArguments (.form .typeArguments))))

/-- The type of a value. -/
def typeQuery : Part :=
  let base : Part := any
    [leaf .importKeyword (Lexeme.keyword "import".toList),
     leaf .thisKeyword (Lexeme.keyword "this".toList), boundName]
  .node .typeQuery (.then_ (word "typeof") (.grow base (any
    [.around .memberExpression (some .object)
      (.then_ (sign ".") (.role .property
        (.or_ privateName (leaf .propertyIdentifier Lexeme.word)))),
     .around .callExpression (some .function) (.role .arguments (.form .arguments)),
     .around .instantiationExpression none (.role .typeArguments (.form .typeArguments))])))

/-- A literal where a type stands. -/
def literalType : Part :=
  .node .literalType (any
    [.node .unaryExpression (.then_ (.or_ (sign "-") (sign "+")) number),
     number, string,
     leaf .trueLiteral (Lexeme.keyword "true".toList),
     leaf .falseLiteral (Lexeme.keyword "false".toList),
     leaf .nullLiteral (Lexeme.keyword "null".toList),
     leaf .undefinedLiteral (Lexeme.keyword "undefined".toList)])

/-- A template where a type stands. -/
def templateType : Part :=
  .node .templateLiteralType (row [sign "\x60",
    .many (any
      [.glued (.named .stringFragment) Lexeme.templateChars,
       .glued (.named .escapeSequence) Lexeme.escape,
       .node .templateType (row [.glued .token (Lexeme.spelled "$\x7b".toList),
         .form .type_, sign "\x7d"])]),
    .glued .token (Lexeme.spelled ['\x60'])])

/-- A member of a tuple type. -/
def tupleMember : Part :=
  let nameOf (t : NodeType) (sep : List Part) : Part :=
    .node t (row (.role .name boundName :: sep ++ [.role .typeOf typeMark]))
  any
    [nameOf .optionalParameter [sign "?"], nameOf .requiredParameter [],
     .node .requiredParameter (row [.role .name (.node .restPattern
       (.then_ (sign "...") boundName)), .role .typeOf typeMark]),
     .node .restType (.then_ (sign "...") (.form .type_)),
     .grow (.form .type_) (.around .optionalType none (sign "?"))]

/-- A type without prefix operators and without brackets behind it. -/
def primaryTypeRule : Part :=
  any
    [.node .parenthesizedType (row [sign "(", .form .type_, sign ")"]),
     .form .objectType,
     .node .tupleType (row [sign "[", sparse tupleMember, sign "]"]),
     literalType, templateType, importedType, typeQuery,
     .node .predefinedType (.then_ (word "unique") (word "symbol")),
     .then_ (leaf .predefinedType fun cs => do
       let n ← Lexeme.word cs
       if (predefinedTypes.map String.toList).contains (cs.take n) then some n else none)
       (.unless (sign ".")),
     leaf .thisType (Lexeme.keyword "this".toList),
     leaf .existentialType (Lexeme.spelled ['*']),
     .then_ (word "const") (.unless (sign ".")),
     namedType]

/-- A type with its prefix operators. -/
def prefixedTypeRule : Part :=
  let bracketed : Part := .grow (.form .primaryType)
    (.then_ (.where_ sameLine) (any
      [.around .arrayType none (.then_ (sign "[") (sign "]")),
       .around .lookupType none (row [sign "[", .form .type_, sign "]"])]))
  let operator (t : NodeType) (spelling : String) : Part :=
    .node t (row [word spelling, notBefore ",;)]\x7d=>|&.<?:", .form .prefixedType])
  any
    [operator .indexTypeQuery "keyof", operator .readonlyType "readonly",
     .node .inferType (row [word "infer", typeName,
       opt (.then_ (word "extends") (.form .unionType))]),
     bracketed]

/-- A type that is the operand of others: the type of a function, or one with
its prefix operators. -/
def typeOperand : Part :=
  let result : Part :=
    let subject : Part := .or_ (leaf .thisKeyword (Lexeme.keyword "this".toList)) boundName
    let predicate : Part := .node .typePredicate
      (row [.role .name subject, word "is", .role .typeOf (.form .type_)])
    any [.node .asserts (row [word "asserts", .or_ predicate subject]), predicate, .form .type_]
  any
    [.node .functionType (row [bareSignature, sign "=>", .role .returnType result]),
     .node .constructorType (row [opt (word "abstract"), word "new", bareSignature, sign "=>",
       .role .typeOf (.form .type_)]),
     .form .prefixedType]

/-- A union of intersections. -/
def unionTypeRule : Part :=
  let intersections : Part :=
    .grow (any [.node .intersectionType (.then_ (mark "&" "&") typeOperand), typeOperand])
      (.around .intersectionType none (.then_ (mark "&" "&") typeOperand))
  .grow (any [.node .unionType (.then_ (mark "|" "|") intersections), intersections])
    (.around .unionType none (.then_ (mark "|" "|") intersections))

/-- A type. -/
def typeRule : Part :=
  .grow (.form .unionType) (.then_ (.where_ sameLine) (.around .conditionalType (some .left) (row
    [word "extends", .role .right (.form .type_),
     sign "?", .role .consequence (.form .type_),
     sign ":", .role .alternative (.form .type_)])))

/-- The clause that names the keys of a mapped type. -/
def mappedClause : Part :=
  .node .mappedTypeClause (row [.role .name typeName, word "in", .role .typeOf (.form .type_),
    opt (.then_ (word "as") (.role .alias (.form .type_)))])

/-- A member of a type that stands for any key. -/
def indexSignature : Part :=
  let value : Part := any
    [.node .omittingTypeMark (.then_ (sign "-?:") (.form .type_)),
     .node .addingTypeMark (.then_ (sign "+?:") (.form .type_)),
     .node .optingTypeMark (.then_ (sign "?:") (.form .type_)),
     typeMark]
  .node .indexSignature (row
    [any [row [.role .sign (.or_ (sign "-") (sign "+")), word "readonly"],
        opt (word "readonly")],
     sign "[",
     .or_ mappedClause (row [.role .name boundName, sign ":", .role .indexType (.form .type_)]),
     sign "]", .role .typeOf value])

/-- The qualifiers of a member. -/
def qualifiers : Part :=
  .many (any
    [.node .accessibilityModifier
      (any [modifier "public", modifier "private", modifier "protected"]),
     .node .overrideModifier (modifier "override"),
     modifier "static", modifier "readonly", modifier "declare", modifier "abstract",
     modifier "accessor"])

/-- The qualifiers of a method. -/
def methodQualifiers : Part :=
  .then_ qualifiers (.then_ (opt (modifier "async"))
    (opt (any [modifier "get", modifier "set", sign "*"])))

/-- A member of an object type. -/
def typeMember : Part :=
  any
    [.node .constructSignature (row [opt (word "abstract"), word "new",
       opt (.role .typeParameters (.form .typeParameters)),
       .role .parameters (.form .parameters), opt (.role .typeOf typeMark)]),
     .node .callSignature signature,
     indexSignature,
     .node .methodSignature (row [methodQualifiers, .role .name (.form .propertyName),
       opt (sign "?"), signature]),
     .node .propertySignature (row [qualifiers, .role .name (.form .propertyName),
       opt (sign "?"), opt (.role .typeOf typeMark)])]

/-- The members of an object type. -/
def typeMembers : Part :=
  let sep : Part := any [sign ",", stop false]
  row [sign "\x7b", opt (.or_ (sign ",") (sign ";")), opt typeMember,
    .many (.then_ sep (opt typeMember)), sign "\x7d"]

/-- The arguments of a generic type. -/
def typeArgumentsRule : Part :=
  .node .typeArguments (row [sign "<", commaList (.form .type_), sign ">"])

/-- The parameters of a generic type. -/
def typeParametersRule : Part :=
  .node .typeParameters (row [sign "<",
    commaList (.node .typeParameter (row
      [opt (.then_ (word "const") (notBefore ",>=")), .role .name typeName,
       opt (.role .constraint (.node .constraint
         (.then_ (.or_ (word "extends") (sign ":")) (.form .type_)))),
       opt (.role .value (.node .defaultType (.then_ (sign "=") (.form .type_))))])),
    sign ">"])

end Retarget.Syntax.Form
