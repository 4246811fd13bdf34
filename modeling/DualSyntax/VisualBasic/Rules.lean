import DualSyntax.Grammar.Rule
import DualSyntax.VisualBasic.Form

/-!
# Rules of VB

A statement ends with a line break, a colon or the end of the text.  Blocks end with a line of
their own.  Binary operators form levels, the tightest innermost.
-/

namespace DualSyntax.VisualBasic

def typeWords : List TokenKind :=
  [.kwObject, .kwString, .kwBoolean, .kwChar, .kwSByte, .kwByte, .kwShort, .kwUShort, .kwInteger,
   .kwUInteger, .kwLong, .kwULong, .kwSingle, .kwDouble, .kwDecimal]

def modifierWords : List TokenKind :=
  [.kwPublic, .kwPrivate, .kwProtected, .kwFriend, .kwShared, .kwMustInherit, .kwMustOverride,
   .kwOverridable, .kwOverrides, .kwNotInheritable, .kwNotOverridable, .kwReadonly, .kwConst,
   .kwShadows, .kwPartial, .kwWriteOnly]

def nameTokens : List TokenKind := [.identifier, .kwGet, .kwSet, .kwValue, .kwPartial]

def literalTokens : List TokenKind :=
  [.integerLiteral, .realLiteral, .stringLiteral, .charLiteral, .kwTrue, .kwFalse, .kwNothing]

def assignmentTokens : List TokenKind :=
  [.eq, .plusEq, .minusEq, .starEq, .slashEq, .backslashEq, .caretEq, .ampEq, .ltLtEq, .gtGtEq]

def caseComparisons : List TokenKind := [.eq, .ltGt, .lt, .gt, .ltEq, .gtEq]

/-- The constructs that an exit statement may name. -/
def exitTargets : List TokenKind :=
  [.kwSub, .kwFunction, .kwProperty, .kwDo, .kwFor, .kwWhile, .kwSelect, .kwTry]

def typeKeywords : List TokenKind := [.kwClass, .kwStructure, .kwInterface, .kwModule]

def tok (k : TokenKind) : Rule Form := .token k

def form (d : Form) : Rule Form := .ref d

def seq (rs : List (Rule Form)) : Rule Form := .sequence rs

def alt (rs : List (Rule Form)) : Rule Form := .choice rs

def opt (r : Rule Form) : Rule Form := .optional r

def anyForm (ds : List Form) : Rule Form := .choice (ds.map form)

/-- The end of a statement. -/
def term : Rule Form := alt [tok .newLine, tok .colon, (tok .eof).ahead]

def level (operand : Form) (operators : List TokenKind) : Rule Form :=
  (form operand).sepBy1 (.oneOf operators)

def commaList (d : Form) : Rule Form := (form d).sepBy (tok .comma)

def commaList1 (d : Form) : Rule Form := (form d).sepBy1 (tok .comma)

def rank : Rule Form := seq [tok .lParen, (tok .comma).star, tok .rParen]

def parens (r : Rule Form) : List (Rule Form) := [tok .lParen, r, tok .rParen]

def asClause : Rule Form := seq [tok .kwAs, form .type]

/-- The line that ends a block. -/
def endOf (k : TokenKind) : List (Rule Form) := [tok .kwEnd, tok k, term]

def loopCondition : Rule Form := seq [.oneOf [.kwWhile, .kwUntil], form .expression]

def rule : Form → Rule Form
  -- names and types
  | .identifier => .oneOf nameTokens
  | .primitiveType => .oneOf typeWords
  | .typeName => (form .identifier).sepBy1 (tok .dot)
  | .nonArrayType => anyForm [.primitiveType, .typeName]
  | .rankSpecifier => rank
  | .type => seq [form .nonArrayType, (form .rankSpecifier).star]
  -- operands
  | .argumentList => commaList .expression
  | .literal => .oneOf literalTokens
  | .identifierExpression => form .identifier
  | .primitiveTypeReference => .oneOf typeWords
  | .typeReferenceExpression => form .primitiveTypeReference
  | .parenthesizedExpression => seq (parens (form .expression))
  | .me => tok .kwMe
  | .myBase => tok .kwMyBase
  | .getTypeExpression => seq (tok .kwGetType :: parens (form .type))
  | .castExpression =>
    seq [.oneOf [.kwCType, .kwDirectCast, .kwTryCast], tok .lParen, form .expression, tok .comma,
      form .type, tok .rParen]
  | .typeOfIsExpression =>
    seq [tok .kwTypeOf, form .postfixExpression, tok .kwIs, form .type]
  | .ifOperator =>
    seq [tok .kwIf, tok .lParen, form .expression, tok .comma, form .expression,
      opt (seq [tok .comma, form .expression]), tok .rParen]
  | .variableInitializer => anyForm [.arrayInitializer, .expression]
  | .variableInitializerList => commaList .variableInitializer
  | .arrayInitializer => seq [tok .lBrace, form .variableInitializerList, tok .rBrace]
  | .trailingRankSpecifier => rank
  | .arrayCreation =>
    seq ([tok .kwNew, form .nonArrayType] ++ parens (form .argumentList) ++
      [(form .trailingRankSpecifier).star, form .arrayInitializer])
  | .objectCreation =>
    seq [tok .kwNew, form .nonArrayType, opt (seq (parens (form .argumentList)))]
  | .primaryExpression =>
    anyForm [.literal, .parenthesizedExpression, .me, .myBase, .getTypeExpression,
      .castExpression, .typeOfIsExpression, .ifOperator, .arrayCreation, .objectCreation,
      .typeReferenceExpression, .identifierExpression]
  | .postfixSuffix =>
    alt [seq [tok .dot, form .identifier], seq [tok .questionDot, form .identifier],
      seq (parens (form .argumentList))]
  | .postfixExpression => seq [form .primaryExpression, (form .postfixSuffix).star]
  -- operators
  | .exponentExpression => level .postfixExpression [.caret]
  | .negation => seq [.oneOf [.minus, .plus], form .negationExpression]
  | .negationExpression => anyForm [.negation, .exponentExpression]
  | .multiplicativeExpression => level .negationExpression [.star, .slash]
  | .integerDivisionExpression => level .multiplicativeExpression [.backslash]
  | .modulusExpression => level .integerDivisionExpression [.kwMod]
  | .additiveExpression => level .modulusExpression [.plus, .minus]
  | .concatenationExpression => level .additiveExpression [.amp]
  | .shiftExpression => level .concatenationExpression [.ltLt, .gtGt]
  | .comparisonExpression =>
    level .shiftExpression [.eq, .ltGt, .lt, .gt, .ltEq, .gtEq, .kwIs, .kwIsNot]
  | .logicalNot => seq [.oneOf [.kwNot], form .notExpression]
  | .notExpression => anyForm [.logicalNot, .comparisonExpression]
  | .andExpression => level .notExpression [.kwAnd, .kwAndAlso]
  | .orExpression => level .andExpression [.kwOr, .kwOrElse]
  | .xorExpression => level .orExpression [.kwXor]
  | .expression => form .xorExpression
  -- declarators
  | .arrayDimensions => commaList1 .expression
  | .arrayNameSuffix => alt [seq (parens (form .arrayDimensions)), rank]
  | .asClause => asClause
  | .asNewClause =>
    seq [tok .kwAs, tok .kwNew, form .nonArrayType, opt (seq (parens (form .argumentList)))]
  | .declaratorInitializer => anyForm [.arrayInitializer, .expression]
  | .variableDeclarator =>
    seq [form .identifier, opt (form .arrayNameSuffix), opt (anyForm [.asNewClause, .asClause]),
      opt (seq [tok .eq, form .declaratorInitializer])]
  | .variableDeclaratorList => commaList1 .variableDeclarator
  -- statements
  | .statements => (form .statement).star
  | .localDeclarationStatement =>
    seq [.oneOf [.kwDim, .kwConst], form .variableDeclaratorList, term]
  | .elseIfPart =>
    seq [tok .kwElseIf, form .expression, opt (tok .kwThen), term, form .statements]
  | .elsePart => seq [tok .kwElse, term, form .statements]
  | .ifBlock =>
    seq ([tok .kwIf, form .expression, opt (tok .kwThen), term, form .statements,
      (form .elseIfPart).star, opt (form .elsePart)] ++ endOf .kwIf)
  | .singleLineIf =>
    seq [tok .kwIf, form .expression, tok .kwThen, .notAhead term, form .statement]
  | .whileBlock =>
    seq ([tok .kwWhile, form .expression, term, form .statements] ++ endOf .kwWhile)
  | .doLoopBlock =>
    seq [tok .kwDo, opt loopCondition, term, form .statements, tok .kwLoop, opt loopCondition,
      term]
  | .loopVariableType => asClause
  | .forEachBlock =>
    seq [tok .kwFor, tok .kwEach, form .identifier, opt (form .loopVariableType), tok .kwIn,
      form .expression, term, form .statements, tok .kwNext, opt (form .identifier), term]
  | .forNextBlock =>
    seq [tok .kwFor, form .identifier, opt (form .loopVariableType), tok .eq, form .expression,
      tok .kwTo, form .expression, opt (seq [tok .kwStep, form .expression]), term,
      form .statements, tok .kwNext, opt (form .identifier), term]
  | .returnStatement => seq [tok .kwReturn, opt (form .expression), term]
  | .throwStatement => seq [tok .kwThrow, opt (form .expression), term]
  | .exitStatement => seq [tok .kwExit, .oneOf exitTargets, term]
  | .continueStatement => seq [tok .kwContinue, .oneOf [.kwFor, .kwDo, .kwWhile], term]
  | .catchPart =>
    seq [tok .kwCatch, opt (seq [form .identifier, tok .kwAs, form .type]), term,
      form .statements]
  | .finallyPart => seq [tok .kwFinally, term, form .statements]
  | .tryBlock =>
    seq ([tok .kwTry, term, form .statements, (form .catchPart).star, opt (form .finallyPart)] ++
      endOf .kwTry)
  | .caseRangeClause => seq [form .expression, tok .kwTo, form .expression]
  | .caseComparisonClause =>
    seq [opt (tok .kwIs), .oneOf caseComparisons, form .expression]
  | .caseClause => anyForm [.caseRangeClause, .caseComparisonClause, .expression]
  | .caseValueList => commaList1 .caseClause
  | .caseBlock =>
    seq [tok .kwCase, alt [tok .kwElse, form .caseValueList], term, form .statements]
  | .selectBlock =>
    seq ([tok .kwSelect, tok .kwCase, form .expression, term, (form .caseBlock).star] ++
      endOf .kwSelect)
  | .usingDeclaration =>
    seq [(seq [form .identifier, .oneOf [.kwAs, .eq]]).ahead, form .variableDeclaratorList]
  | .usingBlock =>
    seq ([tok .kwUsing, anyForm [.usingDeclaration, .expression], term, form .statements] ++
      endOf .kwUsing)
  | .syncLockBlock =>
    seq ([tok .kwSyncLock, form .expression, term, form .statements] ++ endOf .kwSyncLock)
  | .assignmentStatement =>
    seq [form .postfixExpression, .oneOf assignmentTokens, form .expression, term]
  | .expressionStatement => seq [form .postfixExpression, term]
  | .statement =>
    anyForm [.localDeclarationStatement, .ifBlock, .singleLineIf, .whileBlock, .doLoopBlock,
      .forEachBlock, .forNextBlock, .returnStatement, .exitStatement, .continueStatement,
      .throwStatement, .tryBlock, .selectBlock, .usingBlock, .syncLockBlock,
      .assignmentStatement, .expressionStatement]
  -- members
  | .modifiers => (Rule.oneOf modifierWords).star
  | .returnType => asClause
  | .parameterRank => rank
  | .parameter =>
    seq [(Rule.oneOf [.kwByVal, .kwByRef, .kwOptional, .kwParamArray]).star, form .identifier,
      opt (form .parameterRank), opt (form .returnType), opt (seq [tok .eq, form .expression])]
  | .parameterList => commaList .parameter
  | .parameterClause => seq (parens (form .parameterList))
  | .fieldDeclaration =>
    seq [form .modifiers, opt (tok .kwDim), form .variableDeclaratorList, term]
  | .methodBody => seq [form .statements, tok .kwEnd, .oneOf [.kwSub, .kwFunction], term]
  | .methodDeclaration =>
    seq [form .modifiers, .oneOf [.kwSub, .kwFunction], form .identifier,
      opt (form .parameterClause), opt (form .returnType), term, opt (form .methodBody)]
  | .constructorInitializer =>
    seq ([.oneOf [.kwMyBase, .kwMe], tok .dot, tok .kwNew] ++ parens (form .argumentList) ++
      [term])
  | .constructorDeclaration =>
    seq ([form .modifiers, tok .kwSub, tok .kwNew, opt (form .parameterClause), term,
      opt (form .constructorInitializer), form .statements] ++ endOf .kwSub)
  | .accessorBlock =>
    seq [form .modifiers, .oneOf [.kwGet, .kwSet], opt (form .parameterClause), term,
      form .statements, tok .kwEnd, .oneOf [.kwGet, .kwSet], term]
  | .emptyParameterClause => seq [tok .lParen, tok .rParen]
  | .propertyDeclaration =>
    seq ([form .modifiers, tok .kwProperty, form .identifier, opt (form .emptyParameterClause),
      opt (form .returnType), term, (form .accessorBlock).plus] ++ endOf .kwProperty)
  | .autoPropertyDeclaration =>
    seq [form .modifiers, tok .kwProperty, form .identifier, opt (form .emptyParameterClause),
      opt (form .returnType), term]
  | .eventDeclaration =>
    seq [form .modifiers, tok .kwEvent, form .identifier, tok .kwAs, form .type, term]
  | .enumMemberDeclaration =>
    seq [form .identifier, opt (seq [tok .eq, form .expression]), term]
  | .enumDeclaration =>
    seq ([form .modifiers, tok .kwEnum, form .identifier, opt (form .returnType), term,
      (form .enumMemberDeclaration).star] ++ endOf .kwEnum)
  | .typeList => commaList1 .type
  | .inheritsOrImplements => seq [.oneOf [.kwInherits, .kwImplements], form .typeList, term]
  | .typeDeclaration =>
    seq [form .modifiers, .oneOf typeKeywords, form .identifier, term,
      (form .inheritsOrImplements).star, (form .typeMember).star, tok .kwEnd, .oneOf typeKeywords,
      term]
  | .typeMember =>
    anyForm [.typeDeclaration, .enumDeclaration, .constructorDeclaration, .methodDeclaration,
      .propertyDeclaration, .autoPropertyDeclaration, .eventDeclaration, .fieldDeclaration]
  -- compilation units
  | .importsStatement => seq [tok .kwImports, form .typeName, term]
  | .namespaceDeclaration =>
    seq ([tok .kwNamespace, form .typeName, term, (form .importsStatement).star,
      (form .namespaceMember).star] ++ endOf .kwNamespace)
  | .namespaceMember => anyForm [.namespaceDeclaration, .typeDeclaration, .enumDeclaration]
  | .compilationUnit => seq [(form .importsStatement).star, (form .namespaceMember).star]

end DualSyntax.VisualBasic
