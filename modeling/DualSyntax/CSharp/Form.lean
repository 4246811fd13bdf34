/-!
# Definitions of the C# grammar

The names by which the rules of the C# grammar refer to each other.
-/

namespace DualSyntax.CSharp

inductive Form where
  | type | expression | unaryExpression | statement | block | typeMember | namespaceMember
  | usingDirective | localVariableDeclaration | arrayInitializer | identifier | primitiveType
  | typeName | nonArrayType | rankSpecifier | argument | argumentList | literal
  | identifierExpression | typeReferenceExpression | primitiveTypeReference
  | parenthesizedExpression | this | base | typeOfExpression | variableInitializerList
  | variableInitializer | arrayCreationSized | arrayDimensions | trailingRankSpecifier
  | arrayCreationInitialized | objectCreation | primaryExpression | postfixSuffix
  | postfixExpression | prefixUnaryExpression | castExpression | multiplicativeExpression
  | additiveExpression | shiftExpression | relationalTail | relationalExpression
  | equalityExpression | andExpression | exclusiveOrExpression | inclusiveOrExpression
  | conditionalAndExpression | conditionalOrExpression | nullCoalescingExpression
  | conditionalExpression | assignmentExpression | variableDeclarator | declaratorInitializer
  | variableDeclaratorList | localDeclarationStatement | emptyStatement | expressionStatement
  | ifStatement | whileStatement | doStatement | statementExpressionList | forStatement
  | foreachStatement | returnStatement | throwStatement | breakStatement | continueStatement
  | catchClause | tryStatement | switchLabel | switchSection | switchStatement | usingStatement
  | lockStatement | fixedStatement | modifiers | parameter | parameterList | fieldDeclaration
  | methodDeclaration | constructorInitializer | constructorDeclaration | accessor
  | propertyDeclaration | eventDeclaration | enumMemberDeclaration | enumMemberList | baseTypeList
  | enumDeclaration | typeDeclaration | namespaceDeclaration | compilationUnit
deriving DecidableEq, Repr, Inhabited

namespace Form

def all : List Form :=
  [.type, .expression, .unaryExpression, .statement, .block, .typeMember, .namespaceMember,
   .usingDirective, .localVariableDeclaration, .arrayInitializer, .identifier, .primitiveType,
   .typeName, .nonArrayType, .rankSpecifier, .argument, .argumentList, .literal,
   .identifierExpression, .typeReferenceExpression, .primitiveTypeReference,
   .parenthesizedExpression, .this, .base, .typeOfExpression, .variableInitializerList,
   .variableInitializer, .arrayCreationSized, .arrayDimensions, .trailingRankSpecifier,
   .arrayCreationInitialized, .objectCreation, .primaryExpression, .postfixSuffix,
   .postfixExpression, .prefixUnaryExpression, .castExpression, .multiplicativeExpression,
   .additiveExpression, .shiftExpression, .relationalTail, .relationalExpression,
   .equalityExpression, .andExpression, .exclusiveOrExpression, .inclusiveOrExpression,
   .conditionalAndExpression, .conditionalOrExpression, .nullCoalescingExpression,
   .conditionalExpression, .assignmentExpression, .variableDeclarator, .declaratorInitializer,
   .variableDeclaratorList, .localDeclarationStatement, .emptyStatement, .expressionStatement,
   .ifStatement, .whileStatement, .doStatement, .statementExpressionList, .forStatement,
   .foreachStatement, .returnStatement, .throwStatement, .breakStatement, .continueStatement,
   .catchClause, .tryStatement, .switchLabel, .switchSection, .switchStatement, .usingStatement,
   .lockStatement, .fixedStatement, .modifiers, .parameter, .parameterList, .fieldDeclaration,
   .methodDeclaration, .constructorInitializer, .constructorDeclaration, .accessor,
   .propertyDeclaration, .eventDeclaration, .enumMemberDeclaration, .enumMemberList,
   .baseTypeList, .enumDeclaration, .typeDeclaration, .namespaceDeclaration, .compilationUnit]

theorem mem_all (d : Form) : d ∈ all := by
  cases d <;> decide

def name : Form → String
  | type => "Type" | expression => "Expression" | unaryExpression => "UnaryExpression"
  | statement => "Statement" | block => "Block" | typeMember => "TypeMember"
  | namespaceMember => "NamespaceMember" | usingDirective => "UsingDirective"
  | localVariableDeclaration => "LocalVariableDeclaration"
  | arrayInitializer => "ArrayInitializer" | identifier => "Identifier"
  | primitiveType => "PrimitiveType" | typeName => "TypeName" | nonArrayType => "NonArrayType"
  | rankSpecifier => "RankSpecifier" | argument => "Argument" | argumentList => "ArgumentList"
  | literal => "Literal" | identifierExpression => "IdentifierExpression"
  | typeReferenceExpression => "TypeReferenceExpression"
  | primitiveTypeReference => "PrimitiveTypeReference"
  | parenthesizedExpression => "ParenthesizedExpression" | this => "This" | base => "Base"
  | typeOfExpression => "TypeOfExpression" | variableInitializerList => "VariableInitializerList"
  | variableInitializer => "VariableInitializer" | arrayCreationSized => "ArrayCreationSized"
  | arrayDimensions => "ArrayDimensions" | trailingRankSpecifier => "TrailingRankSpecifier"
  | arrayCreationInitialized => "ArrayCreationInitialized" | objectCreation => "ObjectCreation"
  | primaryExpression => "PrimaryExpression" | postfixSuffix => "PostfixSuffix"
  | postfixExpression => "PostfixExpression" | prefixUnaryExpression => "PrefixUnaryExpression"
  | castExpression => "CastExpression" | multiplicativeExpression => "MultiplicativeExpression"
  | additiveExpression => "AdditiveExpression" | shiftExpression => "ShiftExpression"
  | relationalTail => "RelationalTail" | relationalExpression => "RelationalExpression"
  | equalityExpression => "EqualityExpression" | andExpression => "AndExpression"
  | exclusiveOrExpression => "ExclusiveOrExpression"
  | inclusiveOrExpression => "InclusiveOrExpression"
  | conditionalAndExpression => "ConditionalAndExpression"
  | conditionalOrExpression => "ConditionalOrExpression"
  | nullCoalescingExpression => "NullCoalescingExpression"
  | conditionalExpression => "ConditionalExpression"
  | assignmentExpression => "AssignmentExpression" | variableDeclarator => "VariableDeclarator"
  | declaratorInitializer => "DeclaratorInitializer"
  | variableDeclaratorList => "VariableDeclaratorList"
  | localDeclarationStatement => "LocalDeclarationStatement" | emptyStatement => "EmptyStatement"
  | expressionStatement => "ExpressionStatement" | ifStatement => "IfStatement"
  | whileStatement => "WhileStatement" | doStatement => "DoStatement"
  | statementExpressionList => "StatementExpressionList" | forStatement => "ForStatement"
  | foreachStatement => "ForeachStatement" | returnStatement => "ReturnStatement"
  | throwStatement => "ThrowStatement" | breakStatement => "BreakStatement"
  | continueStatement => "ContinueStatement" | catchClause => "CatchClause"
  | tryStatement => "TryStatement" | switchLabel => "SwitchLabel"
  | switchSection => "SwitchSection" | switchStatement => "SwitchStatement"
  | usingStatement => "UsingStatement" | lockStatement => "LockStatement"
  | fixedStatement => "FixedStatement" | modifiers => "Modifiers" | parameter => "Parameter"
  | parameterList => "ParameterList" | fieldDeclaration => "FieldDeclaration"
  | methodDeclaration => "MethodDeclaration" | constructorInitializer => "ConstructorInitializer"
  | constructorDeclaration => "ConstructorDeclaration" | accessor => "Accessor"
  | propertyDeclaration => "PropertyDeclaration" | eventDeclaration => "EventDeclaration"
  | enumMemberDeclaration => "EnumMemberDeclaration" | enumMemberList => "EnumMemberList"
  | baseTypeList => "BaseTypeList" | enumDeclaration => "EnumDeclaration"
  | typeDeclaration => "TypeDeclaration" | namespaceDeclaration => "NamespaceDeclaration"
  | compilationUnit => "CompilationUnit"

end Form

end DualSyntax.CSharp
