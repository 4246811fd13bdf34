import DualSyntax.CSharp.Declarations

/-!
# Writing C#: nodes

The writer of a node, chosen by its kind.
-/

namespace DualSyntax.CSharp

open Writing

def writeKind (node : NodeId → Written) (n : NodeId) : Written := do
  match (← forest).kind n with
  | .token _ text => put text
  | .identifier name => writeName name
  | .modifier m =>
    match Language.csharp.modifierText? m with
    | some word => put word
    | none => unsupported n
  | .comment kind text => comment kind text
  | .blankLine => nothing
  | .primitiveType t => put t.csharpWord
  | .simpleType | .identifierExpression => do node (← required n .identifier)
  | .memberType => writeQualified node n
  | .arrayType rank => do node (← required n .type) ++ writeRank rank
  | .pointerType => do node (← required n .type) ++ put "*"
  | .primitiveExpression literal => writeLiteral literal
  | .memberReferenceExpression nullConditional => writeMember node n nullConditional
  | .invocationExpression => writeCall node n "(" ")"
  | .indexerExpression => writeCall node n "[" "]"
  | .binaryOperatorExpression op => writeBinary node n op
  | .unaryOperatorExpression op => writeUnary node n op
  | .assignmentExpression op => writeAssignment node n op
  | .parenthesizedExpression => do writeParenthesized node (← required n .expression)
  | .conditionalExpression => writeConditional node n
  | .castExpression _ => writeCast node n
  | .asExpression => writeTypeTest node n "as"
  | .typeTestExpression => writeTypeTest node n "is"
  | .typeOfExpression => do put "typeof" ++ writeParenthesized node (← required n .type)
  | .typeReferenceExpression => do node (← required n .type)
  | .thisReferenceExpression => put "this"
  | .baseReferenceExpression => put "base"
  | .objectCreateExpression => writeObjectCreation node n
  | .arrayCreateExpression bounds => writeArrayCreation node n bounds
  | .arrayInitializerExpression => writeElements node n
  | .directionExpression direction => do
    let expression ← required n .expression
    put (match direction with
      | .ref => "ref"
      | .out => "out") ++ space ++ node expression
  | .blockStatement => writeStatementBlock node n
  | .expressionStatement => writeExpressionStatement node n
  | .variableDeclarationStatement => writeDeclaration node n false
  | .variableDeclarator => writeDeclarator node n
  | .ifElseStatement => writeIf node n
  | .whileStatement => writeWhile node n
  | .doLoopStatement test isUntil => writeDoLoop node n test isUntil
  | .forStatement => writeFor node n
  | .foreachStatement => writeForeach node n
  | .returnStatement => writeKeywordStatement node n "return"
  | .throwStatement => writeKeywordStatement node n "throw"
  | .breakStatement => writeKeywordStatement node n "break"
  | .continueStatement => writeKeywordStatement node n "continue"
  | .tryCatchStatement => writeTry node n
  | .catchClause => writeCatch node n
  | .switchStatement => writeSwitch node n
  | .switchSection => writeSection node n
  | .caseLabel => writeCaseLabel node n
  | .usingStatement => writeHeaderStatement node n "using" .resourceAcquisition
  | .lockStatement => writeHeaderStatement node n "lock" .expression
  | .emptyStatement => put ";"
  | .compilationUnit => do
    onLines node ((← forest).children n .members) ++ trailingTrivia n
  | .usingDeclaration => do
    let imported ← required n .imported
    put "using" ++ space ++ node imported ++ put ";"
  | .namespaceDeclaration => writeNamespace node n
  | .typeDeclaration variant => writeTypeDeclaration node n variant
  | .fieldDeclaration => writeDeclaration node n true
  | .methodDeclaration => writeMethod node n
  | .constructorDeclaration => writeConstructor node n
  | .constructorInitializer kind => writeChain node n kind
  | .propertyDeclaration => writeProperty node n
  | .accessor kind => writeAccessor node n kind
  | .eventDeclaration => writeEvent node n
  | .parameterDeclaration modifier => writeParameter node n modifier
  | .enumMemberDeclaration => writeEnumMember node n
  | .fixedStatement => writeFixed node n
  | .exitStatement exit => writeExit n exit
  | .forNextStatement => writeForNext node n
  | .caseRange | .caseComparison _ => unsupported n

def writeUpTo : Nat → NodeId → Written
  | 0, _ => throw .tooDeep
  | fuel + 1, n => marked n (writeKind (writeUpTo fuel) n)

end DualSyntax.CSharp
