import DualSyntax.Grammar.Basic
import DualSyntax.VisualBasic.Rules

/-!
# Shapes of VB

How the matches of the VB grammar become nodes, and the grammar as a whole.
-/

namespace DualSyntax.VisualBasic

def binaryOperator? : TokenKind → Option BinaryOperator
  | .plus => some .add
  | .minus => some .subtract
  | .star => some .multiply
  | .slash => some .divide
  | .backslash => some .integerDivide
  | .kwMod => some .modulus
  | .caret => some .power
  | .amp => some .concat
  | .ltLt => some .shiftLeft
  | .gtGt => some .shiftRight
  | .eq => some .equality
  | .ltGt => some .inEquality
  | .lt => some .lessThan
  | .gt => some .greaterThan
  | .ltEq => some .lessThanOrEqual
  | .gtEq => some .greaterThanOrEqual
  | .kwIs => some .referenceEquality
  | .kwIsNot => some .referenceInequality
  | .kwAnd => some .bitwiseAnd
  | .kwAndAlso => some .conditionalAnd
  | .kwOr => some .bitwiseOr
  | .kwOrElse => some .conditionalOr
  | .kwXor => some .exclusiveOr
  | _ => none

def assignmentOperator? : TokenKind → Option AssignmentOperator
  | .eq => some .assign
  | .plusEq => some .add
  | .minusEq => some .subtract
  | .starEq => some .multiply
  | .slashEq => some .divide
  | .backslashEq => some .integerDivide
  | .caretEq => some .power
  | .ampEq => some .concat
  | .ltLtEq => some .shiftLeft
  | .gtGtEq => some .shiftRight
  | _ => none

def signShape (tokens : List TokenKind) : Shape Form :=
  let of (op : UnaryOperator) : Shape Form :=
    .build (.unaryOperatorExpression op) [.keepAny .operatorToken, .node .expression]
  match tokens.head? with
  | some .kwNot => of .not
  | some .minus => of .minus
  | some .plus => of .plus
  | _ => .refused "prefix operator"

def castKind (tokens : List TokenKind) : NodeKind :=
  match tokens.head? with
  | some .kwCType => .castExpression .explicit
  | some .kwDirectCast => .castExpression .direct
  | _ => .asExpression

def exitKind (tokens : List TokenKind) : ExitKind :=
  match (tokens.drop 1).head? with
  | some .kwSub => .subBody
  | some .kwFunction => .functionBody
  | some .kwProperty => .propertyBody
  | some .kwDo => .doLoop
  | some .kwFor => .forLoop
  | some .kwWhile => .whileLoop
  | some .kwSelect => .selectBlock
  | _ => .tryBlock

def variant (tokens : List TokenKind) : TypeVariant :=
  match tokens.head? with
  | some .kwClass => .classType
  | some .kwStructure => .structType
  | some .kwInterface => .interfaceType
  | _ => .moduleType

/-- How a parameter with these modifiers receives its argument; the last word counts. -/
def passing (tokens : List TokenKind) : ParameterModifier :=
  tokens.foldl (fun found k =>
    match k with
    | .kwByRef => .ref
    | .kwParamArray => .params
    | _ => found) .none

/-- The parts of a comparison in a case, whose operator is the last token. -/
def caseComparisonShape (tokens : List TokenKind) : Shape Form :=
  match tokens.getLast?.bind binaryOperator? with
  | some op =>
    .build (.caseComparison op)
      [.keepMaybe .kwIs .keyword, .keepAny .operatorToken, .node .expression]
  | none => .refused "comparison operator"

def ifOperatorShape (tokens : List TokenKind) : Shape Form :=
  if tokens.count .comma = 2 then
    .join .conditionalExpression
      [([.kwIf, .lParen], .condition), ([.comma], .trueExpression)]
      [.drop .comma, .node .falseExpression, .drop .rParen]
  else
    .join (.binaryOperatorExpression .nullCoalescing)
      [([.kwIf, .lParen], .left), ([.comma], .right)] [.drop .rParen]

def declarators : Part Form := .declarators .arrayNameSuffix .asClause .asNewClause

def parameters : Part Form :=
  .within .parameterClause
    [.keep .lParen .leftParenthesis, .list .parameters, .keep .rParen .rightParenthesis]

def typeClause (d : Form) (t : Title) : Part Form := .within d [.drop .kwAs, .node t]

def propertyHead : List (Part Form) :=
  [.propertyModifiers, .keep .kwProperty .keyword, .node .identifier,
   .within .emptyParameterClause [], typeClause .returnType .type]

def endLine : Part Form := .keep .kwEnd .endKeyword

/-- The line that ends a declaration; comments before it belong to the declaration. -/
def closingLine : Part Form := .close .kwEnd .endKeyword

/-- The shape of a match of a definition with these tokens among its children. -/
def shape (d : Form) (tokens : List TokenKind) : Shape Form :=
  match d with
  | .identifier => .identifier
  | .primitiveType | .primitiveTypeReference => .knownType
  | .typeName => .qualifiedType
  | .type => .rankedType
  | .literal => .literal
  | .identifierExpression => .build .identifierExpression [.node .identifier]
  | .typeReferenceExpression => .build .typeReferenceExpression [.node .type]
  | .parenthesizedExpression =>
    .build .parenthesizedExpression
      [.keep .lParen .leftParenthesis, .node .expression, .keep .rParen .rightParenthesis]
  | .me => .build .thisReferenceExpression []
  | .myBase => .build .baseReferenceExpression []
  | .getTypeExpression =>
    .build .typeOfExpression [.keep .kwGetType .keyword, .drop .lParen, .node .type]
  | .castExpression =>
    .build (castKind tokens)
      [.keepAny .keyword, .drop .lParen, .node .expression, .drop .comma, .node .type,
       .drop .rParen]
  | .typeOfIsExpression =>
    .build .typeTestExpression
      [.keep .kwTypeOf .keyword, .node .expression, .drop .kwIs, .node .type]
  | .ifOperator => ifOperatorShape tokens
  | .arrayInitializer =>
    .build .arrayInitializerExpression
      [.keep .lBrace .leftBrace, .list .elements, .keep .rBrace .rightBrace]
  | .arrayCreation => .sizedArray .trailingRankSpecifier none
  | .objectCreation =>
    .build .objectCreateExpression
      [.keep .kwNew .keyword, .node .type,
       .given .lParen (some .leftParenthesis)
         [.list .arguments, .keep .rParen .rightParenthesis]]
  | .postfixExpression => .suffixed
  | .negation | .logicalNot => signShape tokens
  | .exponentExpression | .multiplicativeExpression | .integerDivisionExpression
  | .modulusExpression | .additiveExpression | .concatenationExpression | .shiftExpression
  | .comparisonExpression | .andExpression | .orExpression | .xorExpression =>
    .chain binaryOperator? false
  | .statements => .build .blockStatement [.everything .statements, .commentsAfter]
  | .localDeclarationStatement =>
    .build .variableDeclarationStatement
      [.keepMaybe .kwDim .keyword, .modifierMaybe .kwConst, declarators]
  | .ifBlock => .ifBlock .elseIfPart .elsePart
  | .singleLineIf =>
    .build .ifElseStatement
      [.keep .kwIf .keyword, .node .condition, .drop .kwThen, .node .trueStatement]
  | .whileBlock =>
    .build .whileStatement
      [.keep .kwWhile .keyword, .node .condition, .node .embeddedStatement, endLine]
  | .doLoopBlock => .doLoop
  | .forEachBlock =>
    .build .foreachStatement
      [.keep .kwFor .keyword, .drop .kwEach, .node .identifier,
       typeClause .loopVariableType .type, .drop .kwIn, .node .expression,
       .node .embeddedStatement]
  | .forNextBlock =>
    .build .forNextStatement
      [.keep .kwFor .keyword, .node .identifier, typeClause .loopVariableType .type, .drop .eq,
       .node .initializer, .drop .kwTo, .node .limit, .given .kwStep none [.node .step],
       .node .embeddedStatement]
  | .returnStatement => .build .returnStatement [.keepAny .keyword, .nodeMaybe .expression]
  | .throwStatement => .build .throwStatement [.keepAny .keyword, .nodeMaybe .expression]
  | .exitStatement => .build (.exitStatement (exitKind tokens)) [.keep .kwExit .keyword]
  | .continueStatement => .build .continueStatement [.keep .kwContinue .keyword]
  | .catchPart =>
    .build .catchClause
      [.keep .kwCatch .keyword, .formMaybe .identifier .identifier,
       .given .kwAs none [.node .type], .node .body]
  | .tryBlock =>
    .build .tryCatchStatement
      [.keep .kwTry .keyword, .node .tryBlock, .forms .catchPart .catchClauses,
       .within .finallyPart [.drop .kwFinally, .node .finallyBlock], endLine]
  | .caseRangeClause => .build .caseRange [.node .expression, .drop .kwTo, .node .limit]
  | .caseComparisonClause => caseComparisonShape tokens
  | .caseBlock => .caseBlock
  | .selectBlock =>
    .build .switchStatement
      [.keep .kwSelect .keyword, .drop .kwCase, .node .expression, .nodes .switchSections, endLine]
  | .usingDeclaration => .build .variableDeclarationStatement [declarators]
  | .usingBlock =>
    .build .usingStatement
      [.keep .kwUsing .keyword, .node .resourceAcquisition, .node .embeddedStatement, endLine]
  | .syncLockBlock =>
    .build .lockStatement
      [.keep .kwSyncLock .keyword, .node .expression, .node .embeddedStatement, endLine]
  | .assignmentStatement => .assignment assignmentOperator?
  | .expressionStatement => .build .expressionStatement [.node .expression]
  | .parameter => .rankedParameter (passing tokens) .parameterRank .returnType
  | .fieldDeclaration => .build .fieldDeclaration [.modifiers, .dropMaybe .kwDim, declarators]
  | .methodDeclaration =>
    .build .methodDeclaration
      [.modifiers, .keepAny .keyword, .node .identifier, parameters,
       typeClause .returnType .type, .objectDefault .kwFunction .type,
       .within .methodBody [.node .body, endLine]]
  | .constructorInitializer =>
    .build (.constructorInitializer (if tokens.contains .kwMyBase then .base else .this))
      [.keepAny .keyword, .drop .dot, .drop .kwNew, .drop .lParen, .list .arguments,
       .drop .rParen]
  | .constructorDeclaration =>
    .build .constructorDeclaration
      [.modifiers, .keep .kwSub .keyword, .drop .kwNew, parameters,
       .formMaybe .constructorInitializer .initializer, .node .body, endLine]
  | .accessorBlock =>
    .build (.accessor (if tokens.head? = some .kwGet then .get else .set))
      [.modifiers, .keepAny .keyword, .within .parameterClause [], .node .body, endLine]
  | .propertyDeclaration =>
    .build .propertyDeclaration (propertyHead ++ [.accessors .accessorBlock, closingLine])
  | .autoPropertyDeclaration =>
    .build .propertyDeclaration (propertyHead ++ [.impliedAccessors .kwProperty])
  | .eventDeclaration =>
    .build .eventDeclaration
      [.modifiers, .keep .kwEvent .keyword, .node .identifier, .drop .kwAs, .node .type]
  | .enumMemberDeclaration =>
    .build .enumMemberDeclaration
      [.node .identifier, .given .eq (some .assign) [.node .initializer]]
  | .enumDeclaration =>
    .build (.typeDeclaration .enumType)
      [.modifiers, .keep .kwEnum .keyword, .node .identifier, typeClause .returnType .baseTypes,
       .forms .enumMemberDeclaration .members, closingLine]
  | .typeDeclaration =>
    .build (.typeDeclaration (variant tokens))
      [.modifiers, .keepAny .keyword, .node .identifier,
       .withinAll .inheritsOrImplements [.dropAny, .list .baseTypes], .typeMembers .identifier,
       closingLine]
  | .importsStatement => .build .usingDeclaration [.keep .kwImports .keyword, .node .imported]
  | .namespaceDeclaration =>
    .build .namespaceDeclaration
      [.keep .kwNamespace .keyword, .node .fullName, .nodes .members, closingLine]
  | .compilationUnit => .build .compilationUnit [.everything .members]
  | _ => .forward

/-- Definitions in front of whose matches comments are kept. -/
def keepsTrivia : Form → Bool
  | .statement | .accessorBlock | .enumMemberDeclaration | .typeMember | .importsStatement
  | .namespaceMember => true
  | _ => false

def grammar : Grammar Form where
  definitions := Form.all
  name := Form.name
  rule d := some (rule d)
  shape := shape
  keepsTrivia := keepsTrivia
  terminators := [.newLine, .colon]
  complete d _ := Form.mem_all d

end DualSyntax.VisualBasic
