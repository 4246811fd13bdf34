/-!
# Definitions of the VB grammar

The names by which the rules of the VB grammar refer to each other.
-/

namespace DualSyntax.VisualBasic

inductive Form where
  | type | nonArrayType | typeName | expression | postfixExpression | argumentList
  | arrayInitializer | statement | statements | variableDeclaratorList | typeMember
  | namespaceMember | importsStatement | identifier | primitiveType | rankSpecifier | literal
  | identifierExpression | typeReferenceExpression | primitiveTypeReference
  | parenthesizedExpression | me | myBase | getTypeExpression | castExpression
  | typeOfIsExpression | ifOperator | variableInitializerList | variableInitializer
  | trailingRankSpecifier | arrayCreation | objectCreation | primaryExpression | postfixSuffix
  | exponentExpression | negationExpression | negation | multiplicativeExpression
  | integerDivisionExpression | modulusExpression | additiveExpression | concatenationExpression
  | shiftExpression | comparisonExpression | notExpression | logicalNot | andExpression
  | orExpression | xorExpression | arrayDimensions | arrayNameSuffix | asClause | asNewClause
  | variableDeclarator | declaratorInitializer | localDeclarationStatement | elseIfPart | elsePart
  | ifBlock | singleLineIf | whileBlock | doLoopBlock | forEachBlock | loopVariableType
  | forNextBlock | returnStatement | throwStatement | exitStatement | continueStatement
  | catchPart | finallyPart | tryBlock | caseRangeClause | caseComparisonClause | caseClause
  | caseValueList | caseBlock | selectBlock | usingDeclaration | usingBlock | syncLockBlock
  | assignmentStatement | expressionStatement | modifiers | returnType | parameterRank | parameter
  | parameterList | parameterClause | fieldDeclaration | methodBody | methodDeclaration
  | constructorInitializer | constructorDeclaration | accessorBlock | emptyParameterClause
  | propertyDeclaration | autoPropertyDeclaration | eventDeclaration | enumMemberDeclaration
  | enumDeclaration | typeList | inheritsOrImplements | typeDeclaration | namespaceDeclaration
  | compilationUnit
deriving DecidableEq, Repr, Inhabited

namespace Form

def all : List Form :=
  [.type, .nonArrayType, .typeName, .expression, .postfixExpression, .argumentList,
   .arrayInitializer, .statement, .statements, .variableDeclaratorList, .typeMember,
   .namespaceMember, .importsStatement, .identifier, .primitiveType, .rankSpecifier, .literal,
   .identifierExpression, .typeReferenceExpression, .primitiveTypeReference,
   .parenthesizedExpression, .me, .myBase, .getTypeExpression, .castExpression,
   .typeOfIsExpression, .ifOperator, .variableInitializerList, .variableInitializer,
   .trailingRankSpecifier, .arrayCreation, .objectCreation, .primaryExpression, .postfixSuffix,
   .exponentExpression, .negationExpression, .negation, .multiplicativeExpression,
   .integerDivisionExpression, .modulusExpression, .additiveExpression, .concatenationExpression,
   .shiftExpression, .comparisonExpression, .notExpression, .logicalNot, .andExpression,
   .orExpression, .xorExpression, .arrayDimensions, .arrayNameSuffix, .asClause, .asNewClause,
   .variableDeclarator, .declaratorInitializer, .localDeclarationStatement, .elseIfPart,
   .elsePart, .ifBlock, .singleLineIf, .whileBlock, .doLoopBlock, .forEachBlock,
   .loopVariableType, .forNextBlock, .returnStatement, .throwStatement, .exitStatement,
   .continueStatement, .catchPart, .finallyPart, .tryBlock, .caseRangeClause,
   .caseComparisonClause, .caseClause, .caseValueList, .caseBlock, .selectBlock,
   .usingDeclaration, .usingBlock, .syncLockBlock, .assignmentStatement, .expressionStatement,
   .modifiers, .returnType, .parameterRank, .parameter, .parameterList, .parameterClause,
   .fieldDeclaration, .methodBody, .methodDeclaration, .constructorInitializer,
   .constructorDeclaration, .accessorBlock, .emptyParameterClause, .propertyDeclaration,
   .autoPropertyDeclaration, .eventDeclaration, .enumMemberDeclaration, .enumDeclaration,
   .typeList, .inheritsOrImplements, .typeDeclaration, .namespaceDeclaration, .compilationUnit]

theorem mem_all (d : Form) : d ∈ all := by
  cases d <;> decide

def name : Form → String
  | type => "Type" | nonArrayType => "NonArrayType" | typeName => "TypeName"
  | expression => "Expression" | postfixExpression => "PostfixExpression"
  | argumentList => "ArgumentList" | arrayInitializer => "ArrayInitializer"
  | statement => "Statement" | statements => "Statements"
  | variableDeclaratorList => "VariableDeclaratorList" | typeMember => "TypeMember"
  | namespaceMember => "NamespaceMember" | importsStatement => "ImportsStatement"
  | identifier => "Identifier" | primitiveType => "PrimitiveType"
  | rankSpecifier => "RankSpecifier" | literal => "Literal"
  | identifierExpression => "IdentifierExpression"
  | typeReferenceExpression => "TypeReferenceExpression"
  | primitiveTypeReference => "PrimitiveTypeReference"
  | parenthesizedExpression => "ParenthesizedExpression" | me => "Me" | myBase => "MyBase"
  | getTypeExpression => "GetTypeExpression" | castExpression => "CastExpression"
  | typeOfIsExpression => "TypeOfIsExpression" | ifOperator => "IfOperator"
  | variableInitializerList => "VariableInitializerList"
  | variableInitializer => "VariableInitializer"
  | trailingRankSpecifier => "TrailingRankSpecifier" | arrayCreation => "ArrayCreation"
  | objectCreation => "ObjectCreation" | primaryExpression => "PrimaryExpression"
  | postfixSuffix => "PostfixSuffix" | exponentExpression => "ExponentExpression"
  | negationExpression => "NegationExpression" | negation => "Negation"
  | multiplicativeExpression => "MultiplicativeExpression"
  | integerDivisionExpression => "IntegerDivisionExpression"
  | modulusExpression => "ModulusExpression" | additiveExpression => "AdditiveExpression"
  | concatenationExpression => "ConcatenationExpression" | shiftExpression => "ShiftExpression"
  | comparisonExpression => "ComparisonExpression" | notExpression => "NotExpression"
  | logicalNot => "LogicalNot" | andExpression => "AndExpression" | orExpression => "OrExpression"
  | xorExpression => "XorExpression" | arrayDimensions => "ArrayDimensions"
  | arrayNameSuffix => "ArrayNameSuffix" | asClause => "AsClause" | asNewClause => "AsNewClause"
  | variableDeclarator => "VariableDeclarator" | declaratorInitializer => "DeclaratorInitializer"
  | localDeclarationStatement => "LocalDeclarationStatement" | elseIfPart => "ElseIfPart"
  | elsePart => "ElsePart" | ifBlock => "IfBlock" | singleLineIf => "SingleLineIf"
  | whileBlock => "WhileBlock" | doLoopBlock => "DoLoopBlock" | forEachBlock => "ForEachBlock"
  | loopVariableType => "LoopVariableType" | forNextBlock => "ForNextBlock"
  | returnStatement => "ReturnStatement" | throwStatement => "ThrowStatement"
  | exitStatement => "ExitStatement" | continueStatement => "ContinueStatement"
  | catchPart => "CatchPart" | finallyPart => "FinallyPart" | tryBlock => "TryBlock"
  | caseRangeClause => "CaseRangeClause" | caseComparisonClause => "CaseComparisonClause"
  | caseClause => "CaseClause" | caseValueList => "CaseValueList" | caseBlock => "CaseBlock"
  | selectBlock => "SelectBlock" | usingDeclaration => "UsingDeclaration"
  | usingBlock => "UsingBlock" | syncLockBlock => "SyncLockBlock"
  | assignmentStatement => "AssignmentStatement" | expressionStatement => "ExpressionStatement"
  | modifiers => "Modifiers" | returnType => "ReturnType" | parameterRank => "ParameterRank"
  | parameter => "Parameter" | parameterList => "ParameterList"
  | parameterClause => "ParameterClause" | fieldDeclaration => "FieldDeclaration"
  | methodBody => "MethodBody" | methodDeclaration => "MethodDeclaration"
  | constructorInitializer => "ConstructorInitializer"
  | constructorDeclaration => "ConstructorDeclaration" | accessorBlock => "AccessorBlock"
  | emptyParameterClause => "EmptyParameterClause" | propertyDeclaration => "PropertyDeclaration"
  | autoPropertyDeclaration => "AutoPropertyDeclaration" | eventDeclaration => "EventDeclaration"
  | enumMemberDeclaration => "EnumMemberDeclaration" | enumDeclaration => "EnumDeclaration"
  | typeList => "TypeList" | inheritsOrImplements => "InheritsOrImplements"
  | typeDeclaration => "TypeDeclaration" | namespaceDeclaration => "NamespaceDeclaration"
  | compilationUnit => "CompilationUnit"

end Form

end DualSyntax.VisualBasic
