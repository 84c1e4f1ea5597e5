import Retarget.Syntax.Grammar.Expressions

/-!
# Markup

Rules for markup elements in TSX.  The names of an opening and a closing tag
need not agree.
-/

namespace Retarget.Syntax.Form

open Rule

/-- A plain tag or attribute name. -/
def markupWord (t : NodeType) : Part :=
  .or_ (leaf t Lexeme.hyphenated) (leaf t Lexeme.word)

/-- The name of a tag. -/
def tagName : Part :=
  any
    [.node .jsxNamespaceName (row [markupWord .identifier, sign ":", markupWord .identifier]),
     .grow (markupWord .identifier) (.around .memberExpression (some .object)
       (.then_ (sign ".") (.role .property (leaf .propertyIdentifier Lexeme.word))))]

/-- A string as the value of an attribute; it may span lines and has no
escapes. -/
def attributeString : Part :=
  let quoted (q : Char) : Part :=
    row [sign (String.singleton q),
      .many (.glued (.named .stringFragment) (Lexeme.run1 (· != q))),
      sign (String.singleton q)]
  .node .string (.or_ (quoted '\'') (quoted '"'))

/-- An attribute. -/
def tagAttribute : Part :=
  let name : Part := any
    [.node .jsxNamespaceName
      (row [markupWord .propertyIdentifier, sign ":", markupWord .propertyIdentifier]),
     markupWord .propertyIdentifier]
  .or_ (.form .markupExpression)
    (.node .jsxAttribute (.then_ name (opt (.then_ (sign "=")
      (any [attributeString, .form .markupExpression, .form .element])))))

/-- An expression inside markup. -/
def markupExpressionRule : Part :=
  .node .jsxExpression (row [sign "\x7b",
    opt (.or_ (.node .spreadElement (.then_ (sign "...") (.form (.expression .closed))))
      (.form (.expressions .closed))),
    sign "\x7d"])

/-- A markup element with what stands between its tags. -/
def elementRule : Part :=
  let opened (close : List Part) : List Part :=
    [sign "<", .role .name tagName, opt (.role .typeArguments (.form .typeArguments)),
     .many (.role .attribute tagAttribute)] ++ close
  let child : Part := any
    [.glued (.named .jsxText) Lexeme.markupText,
     leaf .htmlCharacterReference Lexeme.characterReference,
     .form .element, .form .markupExpression]
  .or_ (.node .jsxSelfClosingElement (row (opened [sign "/", sign ">"])))
    (.node .jsxElement (row
      [.role .openTag (.node .jsxOpeningElement
        (.or_ (row (opened [sign ">"])) (row [sign "<", sign ">"]))),
       .many child,
       .role .closeTag (.node .jsxClosingElement
         (row [sign "<", sign "/", opt (.role .name tagName), sign ">"]))]))

end Retarget.Syntax.Form
