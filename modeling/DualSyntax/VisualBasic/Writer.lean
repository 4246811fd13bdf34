import DualSyntax.VisualBasic.Declarations

/-!
# Writing Visual Basic: nodes

The writer of a node, chosen by its kind.
-/

namespace DualSyntax.VisualBasic

open Writing

def writeKind (node : NodeId → Written) (n : NodeId) : Written := do
  let f ← forest
  match f.kind n with
  | .token _ text => put text
  | .identifier name => writeName name
  | .modifier m =>
    match Language.visualBasic.modifierText? m with
    | some word => put word
    | none => unsupported n
  | .comment kind text => comment kind text
  | .blankLine => nothing
  | .primitiveType t => if t = .void then unsupported n else put t.visualBasicWord
  | .simpleType | .identifierExpression => do node (← required n .identifier)
  | .memberType => writeQualified node n
  | .arrayType rank => do node (← required n .type) ++ writeRank rank
  | .primitiveExpression literal => writeLiteral literal
  | .memberReferenceExpression nullConditional => writeMember node n nullConditional
  | .invocationExpression | .indexerExpression => writeCall node n
  | .binaryOperatorExpression op => writeBinary node n op
  | .unaryOperatorExpression op => writeUnary node n op
  | .assignmentExpression op => writeAssignment node n op
  | .parenthesizedExpression => do
    let expression ← required n .expression
    put "(" ++ node expression ++ put ")"
  | .conditionalExpression => writeConditional node n
  | .castExpression .explicit => writeConversion node n "CType"
  | .castExpression .direct => writeConversion node n "DirectCast"
  | .asExpression => writeConversion node n "TryCast"
  | .typeTestExpression => writeTypeTest node n
  | .typeOfExpression => do
    let type ← required n .type
    put "GetType" ++ put "(" ++ node type ++ put ")"
  | .typeReferenceExpression => do node (← required n .type)
  | .thisReferenceExpression => put "Me"
  | .baseReferenceExpression => put "MyBase"
  | .objectCreateExpression => writeObjectCreation node n
  | .arrayCreateExpression bounds => writeArrayCreation node n bounds
  | .arrayInitializerExpression =>
    put "\x7b" ++ commaSeparated node (f.children n .elements) ++ put "\x7d"
  | .directionExpression _ => do node (← required n .expression)
  | .blockStatement => writeStatements node (f.children n .statements)
  | .expressionStatement => do node (← required n .expression)
  | .variableDeclarationStatement => writeLocalDeclaration node n
  | .variableDeclarator => writeVariable node n (f.child? n .type)
  | .ifElseStatement => writeIf node n
  | .whileStatement => writeWhile node n
  | .doLoopStatement test isUntil => writeDoLoop node n test isUntil
  | .forStatement => writeFor node n
  | .foreachStatement => writeForeach node n
  | .returnStatement => writeKeywordStatement node n "Return"
  | .throwStatement => writeKeywordStatement node n "Throw"
  | .breakStatement => writeJump n "Exit" enclosingTarget?
  | .continueStatement => writeJump n "Continue" enclosingLoop?
  | .tryCatchStatement => writeTry node n
  | .catchClause => writeCatch node n
  | .switchStatement => writeSwitch node n
  | .switchSection => writeSection node n
  | .caseLabel => childOr node n .expression "Else"
  | .caseRange => writeCaseRange node n
  | .caseComparison op => writeCaseComparison node n op
  | .usingStatement => writeUsing node n
  | .lockStatement => writeLock node n
  | .emptyStatement => nothing
  | .compilationUnit => writeCompilationUnit node n
  | .usingDeclaration => do
    let imported ← required n .imported
    put "Imports" ++ space ++ node imported
  | .namespaceDeclaration => writeNamespace node n
  | .typeDeclaration variant => writeTypeDeclaration node n variant
  | .fieldDeclaration => writeField node n
  | .methodDeclaration => writeMethod node n
  | .constructorDeclaration => writeConstructor node n
  | .constructorInitializer kind => writeChain node n kind
  | .propertyDeclaration => writeProperty node n
  | .accessor kind => writeAccessor node n kind
  | .eventDeclaration => writeEvent node n
  | .parameterDeclaration modifier => writeParameter node n modifier
  | .enumMemberDeclaration => writeEnumMember node n
  | .fixedStatement | .pointerType => unsupported n
  | .exitStatement exit => put "Exit" ++ space ++ put (exitWord exit)
  | .forNextStatement => writeForNext node n

def writeUpTo : Nat → NodeId → Written
  | 0, _ => throw .tooDeep
  | fuel + 1, n => marked n (writeKind (writeUpTo fuel) n)

end DualSyntax.VisualBasic
