import DualSyntax.CSharp.Rules
import DualSyntax.Grammar.Basic

/-!
# Shapes of C#

How the matches of the C# grammar become nodes, and the grammar as a whole.
-/

namespace DualSyntax.CSharp

def binaryOperator? : TokenKind → Option BinaryOperator
  | .plus => some .add
  | .minus => some .subtract
  | .star => some .multiply
  | .slash => some .divide
  | .percent => some .modulus
  | .ltLt => some .shiftLeft
  | .gtGt => some .shiftRight
  | .amp => some .bitwiseAnd
  | .pipe => some .bitwiseOr
  | .caret => some .exclusiveOr
  | .ampAmp => some .conditionalAnd
  | .pipePipe => some .conditionalOr
  | .eqEq => some .equality
  | .bangEq => some .inEquality
  | .lt => some .lessThan
  | .gt => some .greaterThan
  | .ltEq => some .lessThanOrEqual
  | .gtEq => some .greaterThanOrEqual
  | .questionQuestion => some .nullCoalescing
  | _ => none

def assignmentOperator? : TokenKind → Option AssignmentOperator
  | .eq => some .assign
  | .plusEq => some .add
  | .minusEq => some .subtract
  | .starEq => some .multiply
  | .slashEq => some .divide
  | .percentEq => some .modulus
  | .ltLtEq => some .shiftLeft
  | .gtGtEq => some .shiftRight
  | .ampEq => some .bitwiseAnd
  | .pipeEq => some .bitwiseOr
  | .caretEq => some .exclusiveOr
  | _ => none

def signOperator? : TokenKind → Option UnaryOperator
  | .bang => some .not
  | .tilde => some .bitNot
  | .minus => some .minus
  | .plus => some .plus
  | .plusPlus => some .increment
  | .minusMinus => some .decrement
  | _ => none

def signShape (tokens : List TokenKind) : Shape Form :=
  match tokens.head?.bind signOperator? with
  | some op => .build (.unaryOperatorExpression op) [.keepAny .operatorToken, .node .expression]
  | none => .refused "prefix operator"

def assignmentShape (tokens : List TokenKind) : Shape Form :=
  match tokens.head?.bind assignmentOperator? with
  | some op =>
    .join (.assignmentExpression op) [([], .left)] [.keepAny .operatorToken, .node .value]
  | none => .refused "assignment operator"

/-- The parts of a statement made of a keyword, an optional expression and a semicolon. -/
def keywordStatement (kind : NodeKind) : Shape Form :=
  .build kind [.keepAny .keyword, .nodeMaybe .expression, .keep .semicolon .semicolon]

def parameters : List (Part Form) :=
  [.keep .lParen .leftParenthesis, .list .parameters, .keep .rParen .rightParenthesis]

def bodyParts : List (Part Form) := [.keepMaybe .semicolon .semicolon, .nodeMaybe .body]

/-- What follows the keyword of a type declaration up to its opening brace. -/
def typeHead : List (Part Form) :=
  [.node .identifier, .given .colon none [.list .baseTypes], .keep .lBrace .leftBrace]

def closing : List (Part Form) := [.close .rBrace .rightBrace, .needless .semicolon]

def passing (tokens : List TokenKind) : ParameterModifier :=
  if tokens.contains .kwRef then .ref
  else if tokens.contains .kwOut then .out
  else if tokens.contains .kwParams then .params
  else .none

def variant (tokens : List TokenKind) : TypeVariant :=
  if tokens.contains .kwClass then .classType
  else if tokens.contains .kwStruct then .structType
  else .interfaceType

/-- The shape of a match of a definition with these tokens among its children. -/
def shape (d : Form) (tokens : List TokenKind) : Shape Form :=
  match d with
  | .identifier => .identifier
  | .primitiveType | .primitiveTypeReference => .knownType
  | .typeName => .qualifiedType
  | .type => .rankedType
  | .argument =>
    .forwardOr tokens (.build (.directionExpression (if tokens.contains .kwRef then .ref else .out))
      [.keepAny .keyword, .node .expression])
  | .literal => .literal
  | .identifierExpression => .build .identifierExpression [.node .identifier]
  | .typeReferenceExpression => .build .typeReferenceExpression [.node .type]
  | .parenthesizedExpression =>
    .build .parenthesizedExpression
      [.keep .lParen .leftParenthesis, .node .expression, .keep .rParen .rightParenthesis]
  | .this => .build .thisReferenceExpression []
  | .base => .build .baseReferenceExpression []
  | .typeOfExpression =>
    .build .typeOfExpression [.keep .kwTypeOf .keyword, .drop .lParen, .node .type]
  | .arrayInitializer =>
    .build .arrayInitializerExpression
      [.keep .lBrace .leftBrace, .list .elements, .keep .rBrace .rightBrace]
  | .arrayCreationSized => .sizedArray .trailingRankSpecifier (some .length)
  | .arrayCreationInitialized => .listedArray
  | .objectCreation =>
    .build .objectCreateExpression
      [.keep .kwNew .keyword, .node .type, .keep .lParen .leftParenthesis, .list .arguments,
       .keep .rParen .rightParenthesis]
  | .postfixExpression => .suffixed
  | .prefixUnaryExpression => signShape tokens
  | .castExpression =>
    .build (.castExpression .explicit)
      [.keep .lParen .leftParenthesis, .node .type, .keep .rParen .rightParenthesis,
       .node .expression]
  | .multiplicativeExpression | .additiveExpression | .shiftExpression | .equalityExpression
  | .andExpression | .exclusiveOrExpression | .inclusiveOrExpression | .conditionalAndExpression
  | .conditionalOrExpression => .chain binaryOperator? false
  | .nullCoalescingExpression => .chain binaryOperator? true
  | .relationalExpression => .comparisons binaryOperator?
  | .conditionalExpression =>
    .forwardOr tokens (.build .conditionalExpression
      [.node .condition, .keep .question .questionMark, .node .trueExpression, .keep .colon .colon,
       .node .falseExpression])
  | .assignmentExpression => assignmentShape tokens
  | .variableDeclarator =>
    .build .variableDeclarator
      [.node .identifier, .given .eq (some .assign) [.node .initializer]]
  | .localVariableDeclaration =>
    .build .variableDeclarationStatement
      [.modifierMaybe .kwConst, .node .type, .list .declarators]
  | .localDeclarationStatement => .extend [.keep .semicolon .semicolon]
  | .block =>
    .build .blockStatement
      [.keep .lBrace .leftBrace, .nodes .statements, .close .rBrace .rightBrace]
  | .emptyStatement => .build .emptyStatement [.keep .semicolon .semicolon]
  | .expressionStatement =>
    .build .expressionStatement [.node .expression, .keep .semicolon .semicolon]
  | .ifStatement =>
    .build .ifElseStatement
      [.keep .kwIf .keyword, .keep .lParen .leftParenthesis, .node .condition,
       .keep .rParen .rightParenthesis, .body .trueStatement,
       .given .kwElse none [.node .falseStatement]]
  | .whileStatement =>
    .build .whileStatement
      [.keep .kwWhile .keyword, .drop .lParen, .node .condition, .drop .rParen,
       .body .embeddedStatement]
  | .doStatement =>
    .build (.doLoopStatement .post false)
      [.keep .kwDo .keyword, .node .embeddedStatement, .drop .kwWhile, .drop .lParen,
       .node .condition, .drop .rParen, .keep .semicolon .semicolon]
  | .forStatement =>
    .build .forStatement
      [.keep .kwFor .keyword, .drop .lParen,
       .headerItems .localVariableDeclaration .initializers, .drop .semicolon,
       .nodeMaybe .condition, .drop .semicolon,
       .headerItems .localVariableDeclaration .iterators, .drop .rParen,
       .node .embeddedStatement]
  | .foreachStatement =>
    .build .foreachStatement
      [.keep .kwForeach .keyword, .drop .lParen, .node .type, .node .identifier, .drop .kwIn,
       .node .expression, .drop .rParen, .node .embeddedStatement]
  | .returnStatement => keywordStatement .returnStatement
  | .throwStatement => keywordStatement .throwStatement
  | .breakStatement => keywordStatement .breakStatement
  | .continueStatement => keywordStatement .continueStatement
  | .catchClause =>
    .build .catchClause
      [.keep .kwCatch .keyword,
       .given .lParen none [.node .type, .nodeMaybe .identifier, .drop .rParen], .node .body]
  | .tryStatement =>
    .build .tryCatchStatement
      [.keep .kwTry .keyword, .node .tryBlock, .forms .catchClause .catchClauses,
       .given .kwFinally none [.node .finallyBlock]]
  | .switchLabel =>
    .build .caseLabel [.keepAny .keyword, .nodeMaybe .expression, .keep .colon .colon]
  | .switchSection =>
    .build .switchSection [.forms .switchLabel .caseLabels, .nodes .statements]
  | .switchStatement =>
    .build .switchStatement
      [.keep .kwSwitch .keyword, .drop .lParen, .node .expression, .drop .rParen,
       .keep .lBrace .leftBrace, .nodes .switchSections, .close .rBrace .rightBrace]
  | .usingStatement =>
    .build .usingStatement
      [.keep .kwUsing .keyword, .drop .lParen, .node .resourceAcquisition, .drop .rParen,
       .node .embeddedStatement]
  | .lockStatement =>
    .build .lockStatement
      [.keep .kwLock .keyword, .drop .lParen, .node .expression, .drop .rParen,
       .node .embeddedStatement]
  | .fixedStatement =>
    .build .fixedStatement
      [.keep .kwFixed .keyword, .drop .lParen, .node .type, .list .declarators, .drop .rParen,
       .node .embeddedStatement]
  | .parameter =>
    .build (.parameterDeclaration (passing tokens))
      [.dropMaybe .kwRef, .dropMaybe .kwOut, .dropMaybe .kwParams, .node .type,
       .node .identifier, .given .eq (some .assign) [.node .defaultExpression]]
  | .fieldDeclaration =>
    .build .fieldDeclaration
      [.modifiers, .node .type, .list .declarators, .keep .semicolon .semicolon]
  | .methodDeclaration =>
    .build .methodDeclaration
      ([.modifiers, .resultType .type, .node .identifier] ++ parameters ++ bodyParts)
  | .constructorInitializer =>
    .build (.constructorInitializer (if tokens.contains .kwBase then .base else .this))
      [.drop .colon, .keepAny .keyword, .drop .lParen, .list .arguments, .drop .rParen]
  | .constructorDeclaration =>
    .build .constructorDeclaration
      ([.modifiers, .node .identifier] ++ parameters ++
        [.formMaybe .constructorInitializer .initializer, .node .body])
  | .accessor =>
    .build (.accessor (if tokens.contains .kwGet then .get else .set))
      ([.modifiers, .keepAny .keyword] ++ bodyParts)
  | .propertyDeclaration =>
    .build .propertyDeclaration
      [.modifiers, .node .type, .node .identifier, .keep .lBrace .leftBrace,
       .accessors .accessor, .close .rBrace .rightBrace]
  | .eventDeclaration =>
    .build .eventDeclaration
      [.modifiers, .keep .kwEvent .keyword, .node .type, .node .identifier,
       .keep .semicolon .semicolon]
  | .enumMemberDeclaration =>
    .build .enumMemberDeclaration
      [.node .identifier, .given .eq (some .assign) [.node .initializer]]
  | .enumDeclaration =>
    .build (.typeDeclaration .enumType)
      ([.modifiers, .keep .kwEnum .keyword] ++ typeHead ++ [.list .members] ++ closing)
  | .typeDeclaration =>
    .build (.typeDeclaration (variant tokens))
      ([.modifiers, .keepAny .keyword] ++ typeHead ++ [.nodes .members] ++ closing)
  | .usingDirective =>
    .build .usingDeclaration
      [.keep .kwUsing .keyword, .node .imported, .keep .semicolon .semicolon]
  | .namespaceDeclaration =>
    .build .namespaceDeclaration
      ([.keep .kwNamespace .keyword, .node .fullName, .keep .lBrace .leftBrace, .nodes .members] ++
        closing)
  | .compilationUnit => .build .compilationUnit [.everything .members]
  | _ => .forward

/-- Definitions in front of whose matches comments are kept. -/
def keepsTrivia : Form → Bool
  | .statement | .accessor | .enumMemberDeclaration | .typeMember | .usingDirective
  | .namespaceMember => true
  | _ => false

def grammar : Grammar Form where
  definitions := Form.all
  name := Form.name
  rule d := some (rule d)
  shape := shape
  keepsTrivia := keepsTrivia
  complete d _ := Form.mem_all d

end DualSyntax.CSharp
