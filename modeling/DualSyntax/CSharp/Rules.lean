import DualSyntax.CSharp.Form
import DualSyntax.Grammar.Rule

/-!
# Rules of C#

Binary operators form levels, the tightest innermost.  A named type in parentheses is a cast only
if the token after it can begin an operand and nothing else; a built-in type always is.
-/

namespace DualSyntax.CSharp

def typeWords : List TokenKind :=
  [.kwVoid, .kwObject, .kwString, .kwBool, .kwChar, .kwSByte, .kwByte, .kwShort, .kwUShort, .kwInt,
   .kwUInt, .kwLong, .kwULong, .kwFloat, .kwDouble, .kwDecimal]

def modifierWords : List TokenKind :=
  [.kwPublic, .kwPrivate, .kwProtected, .kwInternal, .kwStatic, .kwAbstract, .kwVirtual,
   .kwOverride, .kwSealed, .kwReadonly, .kwConst, .kwExtern, .kwNew, .kwPartial, .kwVolatile,
   .kwUnsafe]

def nameTokens : List TokenKind :=
  [.identifier, .kwGet, .kwSet, .kwValue, .kwVar, .kwPartial, .kwAdd, .kwRemove]

def literalTokens : List TokenKind :=
  [.integerLiteral, .realLiteral, .stringLiteral, .charLiteral, .kwTrue, .kwFalse, .kwNull]

def assignmentTokens : List TokenKind :=
  [.eq, .plusEq, .minusEq, .starEq, .slashEq, .percentEq, .ltLtEq, .gtGtEq, .ampEq, .pipeEq,
   .caretEq]

/-- The tokens after which a named type in parentheses is a cast. -/
def castFollowers : List TokenKind :=
  [.identifier, .integerLiteral, .realLiteral, .stringLiteral, .charLiteral, .kwTrue, .kwFalse,
   .kwNull, .lParen, .kwThis, .kwBase, .kwNew, .kwTypeOf, .bang, .tilde]

def signTokens : List TokenKind := [.bang, .tilde, .minus, .plus, .plusPlus, .minusMinus]

def tok (k : TokenKind) : Rule Form := .token k

def form (d : Form) : Rule Form := .ref d

def seq (rs : List (Rule Form)) : Rule Form := .sequence rs

def alt (rs : List (Rule Form)) : Rule Form := .choice rs

def opt (r : Rule Form) : Rule Form := .optional r

def anyForm (ds : List Form) : Rule Form := .choice (ds.map form)

def level (operand : Form) (operators : List TokenKind) : Rule Form :=
  (form operand).sepBy1 (.oneOf operators)

def commaList (d : Form) : Rule Form := (form d).sepBy (tok .comma)

def commaList1 (d : Form) : Rule Form := (form d).sepBy1 (tok .comma)

def rank : Rule Form := seq [tok .lBracket, (tok .comma).star, tok .rBracket]

def parens (r : Rule Form) : List (Rule Form) := [tok .lParen, r, tok .rParen]

def bodyOrSemicolon : Rule Form := alt [form .block, tok .semicolon]

def rule : Form → Rule Form
  -- names and types
  | .identifier => .oneOf nameTokens
  | .primitiveType => .oneOf typeWords
  | .typeName => (form .identifier).sepBy1 (tok .dot)
  | .nonArrayType => anyForm [.primitiveType, .typeName]
  | .rankSpecifier => rank
  | .type => seq [form .nonArrayType, (tok .star).star, (form .rankSpecifier).star]
  -- operands
  | .argument => alt [seq [.oneOf [.kwRef, .kwOut], form .expression], form .expression]
  | .argumentList => commaList .argument
  | .literal => .oneOf literalTokens
  | .identifierExpression => form .identifier
  | .primitiveTypeReference => .oneOf typeWords
  | .typeReferenceExpression => form .primitiveTypeReference
  | .parenthesizedExpression => seq (parens (form .expression))
  | .this => tok .kwThis
  | .base => tok .kwBase
  | .typeOfExpression => seq (tok .kwTypeOf :: parens (form .type))
  | .variableInitializer => anyForm [.arrayInitializer, .expression]
  | .variableInitializerList => (commaList .variableInitializer).allowTrailing
  | .arrayInitializer => seq [tok .lBrace, form .variableInitializerList, tok .rBrace]
  | .arrayDimensions => commaList1 .expression
  | .trailingRankSpecifier => rank
  | .arrayCreationSized =>
    seq [tok .kwNew, form .nonArrayType, tok .lBracket, form .arrayDimensions, tok .rBracket,
      (form .trailingRankSpecifier).star, opt (form .arrayInitializer)]
  | .arrayCreationInitialized => seq [tok .kwNew, form .type, form .arrayInitializer]
  | .objectCreation => seq ([tok .kwNew, form .type] ++ parens (form .argumentList))
  | .primaryExpression =>
    anyForm [.literal, .parenthesizedExpression, .this, .base, .typeOfExpression,
      .arrayCreationSized, .arrayCreationInitialized, .objectCreation, .typeReferenceExpression,
      .identifierExpression]
  | .postfixSuffix =>
    alt [seq [tok .dot, form .identifier], seq [tok .questionDot, form .identifier],
      seq (parens (form .argumentList)),
      seq [tok .lBracket, form .argumentList, tok .rBracket], tok .plusPlus, tok .minusMinus]
  | .postfixExpression => seq [form .primaryExpression, (form .postfixSuffix).star]
  | .prefixUnaryExpression => seq [.oneOf signTokens, form .unaryExpression]
  | .castExpression =>
    alt [
      seq [tok .lParen, (Rule.oneOf typeWords).ahead, form .type, tok .rParen,
        form .unaryExpression],
      seq [tok .lParen, form .type, tok .rParen, (Rule.oneOf castFollowers).ahead,
        form .unaryExpression]]
  | .unaryExpression => anyForm [.prefixUnaryExpression, .castExpression, .postfixExpression]
  -- operators
  | .multiplicativeExpression => level .unaryExpression [.star, .slash, .percent]
  | .additiveExpression => level .multiplicativeExpression [.plus, .minus]
  | .shiftExpression => level .additiveExpression [.ltLt, .gtGt]
  | .relationalTail =>
    alt [seq [.oneOf [.lt, .gt, .ltEq, .gtEq], form .shiftExpression],
      seq [tok .kwIs, form .type], seq [tok .kwAs, form .type]]
  | .relationalExpression => seq [form .shiftExpression, (form .relationalTail).star]
  | .equalityExpression => level .relationalExpression [.eqEq, .bangEq]
  | .andExpression => level .equalityExpression [.amp]
  | .exclusiveOrExpression => level .andExpression [.caret]
  | .inclusiveOrExpression => level .exclusiveOrExpression [.pipe]
  | .conditionalAndExpression => level .inclusiveOrExpression [.ampAmp]
  | .conditionalOrExpression => level .conditionalAndExpression [.pipePipe]
  | .nullCoalescingExpression =>
    (form .conditionalOrExpression).sepBy1 (tok .questionQuestion)
  | .conditionalExpression =>
    seq [form .nullCoalescingExpression,
      opt (seq [tok .question, form .expression, tok .colon, form .expression])]
  | .assignmentExpression =>
    seq [form .unaryExpression, .oneOf assignmentTokens, form .expression]
  | .expression => anyForm [.assignmentExpression, .conditionalExpression]
  -- statements
  | .declaratorInitializer => anyForm [.arrayInitializer, .expression]
  | .variableDeclarator =>
    seq [form .identifier, opt (seq [tok .eq, form .declaratorInitializer])]
  | .variableDeclaratorList => commaList1 .variableDeclarator
  | .localVariableDeclaration =>
    seq [opt (tok .kwConst), form .type, form .variableDeclaratorList]
  | .localDeclarationStatement => seq [form .localVariableDeclaration, tok .semicolon]
  | .block => seq [tok .lBrace, (form .statement).star, tok .rBrace]
  | .emptyStatement => tok .semicolon
  | .expressionStatement => seq [form .expression, tok .semicolon]
  | .ifStatement =>
    seq ([tok .kwIf] ++ parens (form .expression) ++
      [form .statement, opt (seq [tok .kwElse, form .statement])])
  | .whileStatement => seq ([tok .kwWhile] ++ parens (form .expression) ++ [form .statement])
  | .doStatement =>
    seq ([tok .kwDo, form .statement, tok .kwWhile] ++ parens (form .expression) ++
      [tok .semicolon])
  | .statementExpressionList => commaList1 .expression
  | .forStatement =>
    seq [tok .kwFor, tok .lParen,
      opt (anyForm [.localVariableDeclaration, .statementExpressionList]), tok .semicolon,
      opt (form .expression), tok .semicolon, opt (form .statementExpressionList), tok .rParen,
      form .statement]
  | .foreachStatement =>
    seq [tok .kwForeach, tok .lParen, form .type, form .identifier, tok .kwIn, form .expression,
      tok .rParen, form .statement]
  | .returnStatement => seq [tok .kwReturn, opt (form .expression), tok .semicolon]
  | .throwStatement => seq [tok .kwThrow, opt (form .expression), tok .semicolon]
  | .breakStatement => seq [tok .kwBreak, tok .semicolon]
  | .continueStatement => seq [tok .kwContinue, tok .semicolon]
  | .catchClause =>
    seq [tok .kwCatch,
      opt (seq [tok .lParen, form .type, opt (form .identifier), tok .rParen]), form .block]
  | .tryStatement =>
    seq [tok .kwTry, form .block, (form .catchClause).star,
      opt (seq [tok .kwFinally, form .block])]
  | .switchLabel =>
    alt [seq [tok .kwCase, form .expression, tok .colon], seq [tok .kwDefault, tok .colon]]
  | .switchSection => seq [(form .switchLabel).plus, (form .statement).plus]
  | .switchStatement =>
    seq ([tok .kwSwitch] ++ parens (form .expression) ++
      [tok .lBrace, (form .switchSection).star, tok .rBrace])
  | .usingStatement =>
    seq ([tok .kwUsing] ++ parens (anyForm [.localVariableDeclaration, .expression]) ++
      [form .statement])
  | .lockStatement => seq ([tok .kwLock] ++ parens (form .expression) ++ [form .statement])
  | .fixedStatement =>
    seq [tok .kwFixed, tok .lParen, form .type, form .variableDeclaratorList, tok .rParen,
      form .statement]
  | .statement =>
    anyForm [.block, .emptyStatement, .ifStatement, .whileStatement, .doStatement, .forStatement,
      .foreachStatement, .returnStatement, .breakStatement, .continueStatement, .throwStatement,
      .tryStatement, .switchStatement, .usingStatement, .lockStatement, .fixedStatement,
      .localDeclarationStatement, .expressionStatement]
  -- members
  | .modifiers => (Rule.oneOf modifierWords).star
  | .parameter =>
    seq [opt (.oneOf [.kwRef, .kwOut, .kwParams]), form .type, form .identifier,
      opt (seq [tok .eq, form .expression])]
  | .parameterList => commaList .parameter
  | .fieldDeclaration =>
    seq [form .modifiers, form .type, form .variableDeclaratorList, tok .semicolon]
  | .methodDeclaration =>
    seq ([form .modifiers, form .type, form .identifier] ++ parens (form .parameterList) ++
      [bodyOrSemicolon])
  | .constructorInitializer =>
    seq ([tok .colon, .oneOf [.kwBase, .kwThis]] ++ parens (form .argumentList))
  | .constructorDeclaration =>
    seq ([form .modifiers, form .identifier] ++ parens (form .parameterList) ++
      [opt (form .constructorInitializer), form .block])
  | .accessor => seq [form .modifiers, .oneOf [.kwGet, .kwSet], bodyOrSemicolon]
  | .propertyDeclaration =>
    seq [form .modifiers, form .type, form .identifier, tok .lBrace, (form .accessor).star,
      tok .rBrace]
  | .eventDeclaration =>
    seq [form .modifiers, tok .kwEvent, form .type, form .identifier, tok .semicolon]
  | .enumMemberDeclaration => seq [form .identifier, opt (seq [tok .eq, form .expression])]
  | .enumMemberList => (commaList .enumMemberDeclaration).allowTrailing
  | .baseTypeList => commaList1 .type
  | .enumDeclaration =>
    seq [form .modifiers, tok .kwEnum, form .identifier,
      opt (seq [tok .colon, form .baseTypeList]), tok .lBrace, form .enumMemberList, tok .rBrace,
      opt (tok .semicolon)]
  | .typeDeclaration =>
    seq [form .modifiers, .oneOf [.kwClass, .kwStruct, .kwInterface], form .identifier,
      opt (seq [tok .colon, form .baseTypeList]), tok .lBrace, (form .typeMember).star,
      tok .rBrace, opt (tok .semicolon)]
  | .typeMember =>
    anyForm [.typeDeclaration, .enumDeclaration, .constructorDeclaration, .methodDeclaration,
      .propertyDeclaration, .eventDeclaration, .fieldDeclaration]
  -- compilation units
  | .usingDirective => seq [tok .kwUsing, form .typeName, tok .semicolon]
  | .namespaceDeclaration =>
    seq [tok .kwNamespace, form .typeName, tok .lBrace, (form .usingDirective).star,
      (form .namespaceMember).star, tok .rBrace, opt (tok .semicolon)]
  | .namespaceMember => anyForm [.namespaceDeclaration, .typeDeclaration, .enumDeclaration]
  | .compilationUnit => seq [(form .usingDirective).star, (form .namespaceMember).star]

end DualSyntax.CSharp
