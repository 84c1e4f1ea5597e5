import Retarget.Syntax.Grammar.Expressions

/-!
# Statements

Rules for statements and declarations.  A word that opens a statement is no
identifier at its start; everywhere else it may be one.
-/

namespace Retarget.Syntax.Form

open Rule

/-- A condition in parentheses. -/
def condition : Part :=
  .role .condition (.node .parenthesizedExpression
    (row [sign "(", .form (.expressions .closed), opt (.role .typeOf typeMark), sign ")"]))

/-- The statement that another one governs. -/
def governed : Part :=
  .role .body (.form .statement)

/-- A name with its type and first value. -/
def declarator (s : Setting) : Part :=
  .node .variableDeclarator (.or_
    (row [.role .name boundName, mark "!" "=", .role .typeOf typeMark])
    (row [.role .name binding, opt (.role .typeOf typeMark), opt (initializer s)]))

/-- The names of a declaration and its end.  A bracket that could continue the
value has been read as part of it, so one on the next line opens a statement. -/
def declarators : Part :=
  .then_ (sepBy1 (sign ",") (declarator .open_)) (.or_ (stop true) (stop false))

/-- A declaration of names in a block. -/
def lexicalDeclaration : Part :=
  .node .lexicalDeclaration
    (.then_ (.role .kind (.or_ (word "let") (word "const"))) declarators)

/-- A declaration of names in a function. -/
def variableDeclaration : Part :=
  .node .variableDeclaration (.then_ (word "var") declarators)

/-- A dotted name of a module. -/
def moduleName : Part :=
  dottedName boundName

/-- The body of a module. -/
def moduleBody : Part :=
  .role .body (.form .block)

/-- A module that other files can name. -/
def internalModule : Part :=
  .node .internalModule (row [word "namespace", .role .name (.or_ string moduleName),
    opt moduleBody])

/-- A clause that names the source of an import or export. -/
def fromClause : Part :=
  row [word "from", .role .source string, opt importAttribute]
where
  /-- The attributes of an import. -/
  importAttribute : Part :=
    .node .importAttribute (.then_ (.or_ (word "with") (word "assert")) (.form .object))

/-- A name that is exported or imported under another one. -/
def specifier (t : NodeType) : Part :=
  let name : Part := .or_ string boundName
  .node t (.or_
    (row [word "type", .role .name name,
      opt (.then_ (word "as") (.role .alias name)), .ahead (.or_ (sign ",") (sign "\x7d"))])
    (row [opt (word "typeof"), .role .name name, opt (.then_ (word "as") (.role .alias name))]))

/-- An import. -/
def importStatement : Part :=
  let namespaceImport : Part := .node .namespaceImport (row [sign "*", word "as", boundName])
  let named : Part := .node .namedImports
    (row [sign "\x7b", opt (commaList (specifier .importSpecifier)), sign "\x7d"])
  let clause : Part := .node .importClause (any
    [namespaceImport, named,
     .then_ boundName (opt (.then_ (sign ",") (.or_ namespaceImport named)))])
  let required : Part := .node .importRequireClause
    (row [boundName, sign "=", word "require", sign "(", .role .source string, sign ")"])
  let body : Part := any
    [.then_ clause fromClause, required,
     .then_ (.role .source string) (opt fromClause.importAttribute)]
  .node .importStatement (row [word "import",
    .or_ (.then_ (.or_ (word "type") (word "typeof")) body) body, stop false])

/-- A short name for a module. -/
def importAlias : Part :=
  .node .importAlias (row [word "import", boundName, sign "=", moduleName, stop false])

/-- An export. -/
def exportStatement : Part :=
  let clause : Part := .node .exportClause
    (row [sign "\x7b", opt (commaList (specifier .exportSpecifier)), sign "\x7d"])
  let all : Part := .node .namespaceExport (row [sign "*", word "as", .or_ string boundName])
  let declared : Part := .role .declaration (.form .declaration)
  .node .exportStatement (.then_ (.many (.role .decorator (.form .decorator))) (.then_
    (word "export") (any
      [row [opt (word "type"), .or_ all (sign "*"), fromClause, stop false],
       row [opt (word "type"), clause, opt fromClause, stop false],
       row [sign "=", .form (.expression .open_), stop true],
       row [word "as", word "namespace", boundName, stop false],
       .then_ (word "default") (.or_ declared
         (.then_ (.role .value (.form (.expression .open_))) (stop true))),
       declared])))

/-- An enumeration. -/
def enumDeclaration : Part :=
  let member : Part := .or_
    (.node .enumAssignment (row [.role .name (.form .propertyName), initializer .closed]))
    (.role .name (.form .propertyName))
  .node .enumDeclaration (row [opt (word "const"), word "enum", .role .name boundName,
    .role .body (.node .enumBody (row [sign "\x7b", opt (commaList member), sign "\x7d"]))])

/-- An interface. -/
def interfaceDeclaration : Part :=
  .node .interfaceDeclaration (row [word "interface", .role .name typeName,
    opt (.role .typeParameters (.form .typeParameters)),
    opt (.node .extendsTypeClause (.then_ (word "extends") (sepBy1 (sign ",") (.form .type_)))),
    .role .body (.node .interfaceBody typeMembers)])

/-- A name for a type. -/
def typeAlias : Part :=
  .node .typeAliasDeclaration (row [word "type", .role .name typeName,
    opt (.role .typeParameters (.form .typeParameters)), sign "=",
    .role .value (.form .type_), stop false])

/-- A declaration of what exists elsewhere. -/
def ambientDeclaration : Part :=
  .node .ambientDeclaration (.then_ (word "declare") (any
    [.then_ (word "global") (.form .block), .form .declaration,
     row [word "module", sign ".", boundName, sign ":", .form .type_, stop false]]))

/-- A declaration. -/
def declarationRule : Part :=
  any
    [.or_ functionDeclaration functionSignature, classDeclaration, lexicalDeclaration,
     variableDeclaration, enumDeclaration, interfaceDeclaration, typeAlias, internalModule,
     .node .moduleBlock (row [word "module", .role .name (.or_ string moduleName),
       .or_ moduleBody (stop false)]),
     importAlias, ambientDeclaration]

/-- A loop over a counter or condition. -/
def forStatement : Part :=
  let first : Part := any
    [lexicalDeclaration, variableDeclaration,
     .then_ (.form (.expressions .closed)) (sign ";"), .node .emptyStatement (sign ";")]
  let second : Part := .or_ (.then_ (.form (.expressions .closed)) (sign ";"))
    (.node .emptyStatement (sign ";"))
  .node .forStatement (row [word "for", sign "(", .role .initializer first,
    .role .condition second, opt (.role .increment (.form (.expressions .closed))), sign ")",
    governed])

/-- A loop over the keys or items of a value. -/
def forInStatement : Part :=
  let declared : Part := any
    [row [.role .kind (word "var"), .role .left binding, opt (initializer .closed)],
     row [.role .kind (.or_ (word "let") (word "const")), .role .left binding]]
  let target : Part := .role .left (.or_
    (.node .parenthesizedExpression (row [sign "(", .form (.expressions .closed), sign ")"]))
    (.form .pattern))
  .node .forInStatement (row [word "for", opt (word "await"), sign "(",
    .or_ (row [declared, loopWord]) (row [target, loopWord]),
    .role .right (.form (.expressions .closed)), sign ")", governed])
where
  /-- The word between the name and the value. -/
  loopWord : Part :=
    .role .operator (.or_ (word "in") (word "of"))

/-- A choice by the value of an expression. -/
def switchStatement : Part :=
  let bodies : Part := .many
    (.then_ (.unless (.or_ (word "case") (.then_ (word "default") (sign ":"))))
      (.role .body (.form .statement)))
  let branch : Part := .or_
    (.node .switchCase (row [word "case", .role .value (.form (.expressions .closed)), sign ":",
      bodies]))
    (.node .switchDefault (row [word "default", sign ":", bodies]))
  .node .switchStatement (row [word "switch",
    .role .value (.node .parenthesizedExpression
      (row [sign "(", .form (.expressions .closed), sign ")"])),
    .role .body (.node .switchBody (row [sign "\x7b", .many branch, sign "\x7d"]))])

/-- A block guarded against failure. -/
def tryStatement : Part :=
  let handler : Part := .node .catchClause (row [word "catch",
    opt (row [sign "(", .role .parameter binding, opt (.role .typeOf typeMark), sign ")"]),
    .role .body (.form .block)])
  .node .tryStatement (row [word "try", .role .body (.form .block),
    opt (.role .handler handler),
    opt (.role .finalizer (.node .finallyClause
      (.then_ (word "finally") (.role .body (.form .block)))))])

/-- A jump, perhaps to a label. -/
def jump (t : NodeType) (spelling : String) : Part :=
  .node t (.then_ (word spelling) (.or_ (stop false)
    (.then_ (.role .label (leaf .statementIdentifier Lexeme.word)) (stop false))))

/-- An expression as a statement. -/
def expressionStatement : Part :=
  .node .expressionStatement (.then_ (.form (.expressions .open_)) (stop true))

/-- A statement with a label. -/
def labeledStatement : Part :=
  .node .labeledStatement (row
    [.role .label (leaf .statementIdentifier (Lexeme.wordExcept expressionWords)), sign ":",
     governed])

/-- A statement that opens with a brace: a block, unless it reads as an object
with a first pair. -/
def bracedStatement : Part :=
  .then_ (.ahead (sign "\x7b")) (any
    [.then_ (.where_ arrowFunction.startsPair) expressionStatement,
     .form .block, expressionStatement])

/-- A statement. -/
def statementRule : Part :=
  any
    [bracedStatement,
     .node .emptyStatement (sign ";"),
     exportStatement, importStatement,
     .form .declaration,
     .node .ifStatement (row [word "if", condition, .role .consequence (.form .statement),
       opt (.role .alternative (.node .elseClause (.then_ (word "else") (.form .statement))))]),
     forInStatement, forStatement,
     .node .whileStatement (row [word "while", condition, governed]),
     .node .doStatement (row [word "do", governed, word "while", condition, opt (stop true)]),
     switchStatement, tryStatement,
     .node .withStatement (row [word "with",
       .role .object (.node .parenthesizedExpression
         (row [sign "(", .form (.expressions .closed), sign ")"])), governed]),
     jump .breakStatement "break", jump .continueStatement "continue",
     .node .debuggerStatement (.then_ (word "debugger") (stop false)),
     .node .returnStatement (.then_ (word "return") (.or_ (stop false)
       (.then_ (.form (.expressions .open_)) (stop true)))),
     .node .throwStatement (row [word "throw", .form (.expressions .open_), stop true]),
     .then_ (.unless (any (statementWords.map word)))
       (.or_ labeledStatement expressionStatement)]

/-- A block of statements. -/
def blockRule : Part :=
  .node .statementBlock (row [sign "\x7b", .many (.form .statement), sign "\x7d"])

/-- A program: statements, perhaps after a line that names the interpreter. -/
def programRule : Part :=
  .then_ (opt (.glued (.named .hashBangLine) Lexeme.hashBang)) (.many (.form .statement))

end Retarget.Syntax.Form
