import DualSyntax.Language.Basic
import DualSyntax.Node.KnownType
import DualSyntax.Node.Modifier
import DualSyntax.Node.Operator
import DualSyntax.Token.Value

/-!
# Node kinds

The closed set of tree nodes that both languages share, each with the data that is not itself a
node: names, operators, literal values.  Everything else hangs in the titled slots of the node.
-/

namespace DualSyntax

/-- The three ways to write a comment. -/
inductive CommentKind where
  | line | doc | block
deriving DecidableEq, Repr, Inhabited

namespace CommentKind

def all : List CommentKind :=
  [.line, .doc, .block]

def name : CommentKind → String
  | line => "Line" | doc => "Doc" | block => "Block"

def ofName? (s : String) : Option CommentKind := all.find? (·.name == s)

end CommentKind

inductive TypeVariant where
  | classType | structType | interfaceType | enumType | moduleType
deriving DecidableEq, Repr, Inhabited

namespace TypeVariant

def all : List TypeVariant :=
  [.classType, .structType, .interfaceType, .enumType, .moduleType]

def name : TypeVariant → String
  | classType => "Class" | structType => "Struct" | interfaceType => "Interface"
  | enumType => "Enum" | moduleType => "Module"

def ofName? (s : String) : Option TypeVariant := all.find? (·.name == s)

end TypeVariant

/-- How a cast converts: by any conversion, or only between related types. -/
inductive CastStyle where
  | explicit | direct
deriving DecidableEq, Repr, Inhabited

namespace CastStyle

def all : List CastStyle :=
  [.explicit, .direct]

def name : CastStyle → String
  | explicit => "Explicit" | direct => "Direct"

def ofName? (s : String) : Option CastStyle := all.find? (·.name == s)

end CastStyle

/-- What the sizes of an array creation count: the elements, or the last index. -/
inductive ArrayBounds where
  | length | upperBound
deriving DecidableEq, Repr, Inhabited

namespace ArrayBounds

def all : List ArrayBounds :=
  [.length, .upperBound]

def name : ArrayBounds → String
  | length => "Length" | upperBound => "UpperBound"

def ofName? (s : String) : Option ArrayBounds := all.find? (·.name == s)

end ArrayBounds

inductive Direction where
  | ref | out
deriving DecidableEq, Repr, Inhabited

namespace Direction

def all : List Direction :=
  [.ref, .out]

def name : Direction → String
  | ref => "Ref" | out => "Out"

def ofName? (s : String) : Option Direction := all.find? (·.name == s)

end Direction

inductive LoopTest where
  | none | pre | post
deriving DecidableEq, Repr, Inhabited

namespace LoopTest

def all : List LoopTest :=
  [.none, .pre, .post]

def name : LoopTest → String
  | none => "None" | pre => "Pre" | post => "Post"

def ofName? (s : String) : Option LoopTest := all.find? (·.name == s)

end LoopTest

inductive ExitKind where
  | subBody | functionBody | propertyBody | doLoop | forLoop | whileLoop | selectBlock | tryBlock
deriving DecidableEq, Repr, Inhabited

namespace ExitKind

def all : List ExitKind :=
  [.subBody, .functionBody, .propertyBody, .doLoop, .forLoop, .whileLoop, .selectBlock, .tryBlock]

def name : ExitKind → String
  | subBody => "Sub" | functionBody => "Function" | propertyBody => "Property" | doLoop => "Do"
  | forLoop => "For" | whileLoop => "While" | selectBlock => "Select" | tryBlock => "Try"

def ofName? (s : String) : Option ExitKind := all.find? (·.name == s)

end ExitKind

inductive ParameterModifier where
  | none | ref | out | params
deriving DecidableEq, Repr, Inhabited

namespace ParameterModifier

def all : List ParameterModifier :=
  [.none, .ref, .out, .params]

def name : ParameterModifier → String
  | none => "None" | ref => "Ref" | out => "Out" | params => "Params"

def ofName? (s : String) : Option ParameterModifier := all.find? (·.name == s)

end ParameterModifier

inductive AccessorKind where
  | get | set | add | remove
deriving DecidableEq, Repr, Inhabited

namespace AccessorKind

def all : List AccessorKind :=
  [.get, .set, .add, .remove]

def name : AccessorKind → String
  | get => "Get" | set => "Set" | add => "Add" | remove => "Remove"

def ofName? (s : String) : Option AccessorKind := all.find? (·.name == s)

end AccessorKind

inductive ChainKind where
  | base | this
deriving DecidableEq, Repr, Inhabited

namespace ChainKind

def all : List ChainKind :=
  [.base, .this]

def name : ChainKind → String
  | base => "Base" | this => "This"

def ofName? (s : String) : Option ChainKind := all.find? (·.name == s)

end ChainKind

/-- A literal: its value and, if it was read from a source text, its spelling there. -/
structure Literal where
  value : LiteralValue
  /-- The language and the spelling of the source text. -/
  spelling : Option (Language × String) := none
deriving BEq, Inhabited

/-- The spelling of a literal read from a text of the given language. -/
def Literal.spellingIn (lit : Literal) (l : Language) : Option String :=
  match lit.spelling with
  | some (m, s) => if m = l then some s else none
  | none => none

/-- The kind of a tree node with the data it carries. -/
inductive NodeKind where
  -- leaves
  | token (kind : TokenKind) (text : String)
  | identifier (name : String)
  | modifier (m : DualSyntax.Modifier)
  | comment (kind : CommentKind) (text : String)
  | blankLine
  -- types
  | primitiveType (t : KnownType)
  | simpleType | memberType
  | arrayType (rank : Nat)
  | pointerType
  -- expressions
  | primitiveExpression (literal : Literal)
  | identifierExpression
  | memberReferenceExpression (nullConditional : Bool)
  | invocationExpression | indexerExpression
  | binaryOperatorExpression (op : BinaryOperator)
  | unaryOperatorExpression (op : UnaryOperator)
  | assignmentExpression (op : AssignmentOperator)
  | parenthesizedExpression | conditionalExpression
  | castExpression (style : CastStyle)
  | asExpression | typeTestExpression | typeOfExpression | typeReferenceExpression
  | thisReferenceExpression | baseReferenceExpression | objectCreateExpression
  | arrayCreateExpression (bounds : ArrayBounds)
  | arrayInitializerExpression
  | directionExpression (direction : Direction)
  -- statements and their parts
  | blockStatement | expressionStatement | variableDeclarationStatement | variableDeclarator
  | ifElseStatement | whileStatement
  | doLoopStatement (test : LoopTest) (isUntil : Bool)
  | forStatement | foreachStatement | returnStatement | breakStatement | continueStatement
  | throwStatement | tryCatchStatement | catchClause | switchStatement | switchSection | caseLabel
  | usingStatement | lockStatement | emptyStatement
  -- declarations and their parts
  | compilationUnit | usingDeclaration | namespaceDeclaration
  | typeDeclaration (variant : TypeVariant)
  | fieldDeclaration | methodDeclaration | constructorDeclaration
  | constructorInitializer (chain : ChainKind)
  | propertyDeclaration
  | accessor (role : AccessorKind)
  | eventDeclaration
  | parameterDeclaration (passing : ParameterModifier)
  | enumMemberDeclaration
  -- what only one of the languages has
  | fixedStatement
  | exitStatement (left : ExitKind)
  | forNextStatement | caseRange
  | caseComparison (op : BinaryOperator)
deriving BEq, Inhabited

namespace NodeKind

def name : NodeKind → String
  | token _ _ => "Token"
  | identifier _ => "Identifier"
  | modifier _ => "Modifier"
  | comment _ _ => "Comment"
  | blankLine => "BlankLine"
  | primitiveType _ => "PrimitiveType"
  | simpleType => "SimpleType"
  | memberType => "MemberType"
  | arrayType _ => "ArrayType"
  | pointerType => "PointerType"
  | primitiveExpression _ => "PrimitiveExpression"
  | identifierExpression => "IdentifierExpression"
  | memberReferenceExpression _ => "MemberReferenceExpression"
  | invocationExpression => "InvocationExpression"
  | indexerExpression => "IndexerExpression"
  | binaryOperatorExpression _ => "BinaryOperatorExpression"
  | unaryOperatorExpression _ => "UnaryOperatorExpression"
  | assignmentExpression _ => "AssignmentExpression"
  | parenthesizedExpression => "ParenthesizedExpression"
  | conditionalExpression => "ConditionalExpression"
  | castExpression _ => "CastExpression"
  | asExpression => "AsExpression"
  | typeTestExpression => "IsExpression"
  | typeOfExpression => "TypeOfExpression"
  | typeReferenceExpression => "TypeReferenceExpression"
  | thisReferenceExpression => "ThisReferenceExpression"
  | baseReferenceExpression => "BaseReferenceExpression"
  | objectCreateExpression => "ObjectCreateExpression"
  | arrayCreateExpression _ => "ArrayCreateExpression"
  | arrayInitializerExpression => "ArrayInitializerExpression"
  | directionExpression _ => "DirectionExpression"
  | blockStatement => "BlockStatement"
  | expressionStatement => "ExpressionStatement"
  | variableDeclarationStatement => "VariableDeclarationStatement"
  | variableDeclarator => "VariableDeclarator"
  | ifElseStatement => "IfElseStatement"
  | whileStatement => "WhileStatement"
  | doLoopStatement _ _ => "DoLoopStatement"
  | forStatement => "ForStatement"
  | foreachStatement => "ForeachStatement"
  | returnStatement => "ReturnStatement"
  | breakStatement => "BreakStatement"
  | continueStatement => "ContinueStatement"
  | throwStatement => "ThrowStatement"
  | tryCatchStatement => "TryCatchStatement"
  | catchClause => "CatchClause"
  | switchStatement => "SwitchStatement"
  | switchSection => "SwitchSection"
  | caseLabel => "CaseLabel"
  | usingStatement => "UsingStatement"
  | lockStatement => "LockStatement"
  | emptyStatement => "EmptyStatement"
  | compilationUnit => "CompilationUnit"
  | usingDeclaration => "UsingDeclaration"
  | namespaceDeclaration => "NamespaceDeclaration"
  | typeDeclaration _ => "TypeDeclaration"
  | fieldDeclaration => "FieldDeclaration"
  | methodDeclaration => "MethodDeclaration"
  | constructorDeclaration => "ConstructorDeclaration"
  | constructorInitializer _ => "ConstructorInitializer"
  | propertyDeclaration => "PropertyDeclaration"
  | accessor _ => "Accessor"
  | eventDeclaration => "EventDeclaration"
  | parameterDeclaration _ => "ParameterDeclaration"
  | enumMemberDeclaration => "EnumMemberDeclaration"
  | fixedStatement => "FixedStatement"
  | exitStatement _ => "ExitStatement"
  | forNextStatement => "ForNextStatement"
  | caseRange => "CaseRange"
  | caseComparison _ => "CaseComparison"

def detail : NodeKind → String
  | token k s => "Token(AstToken \x7b kind: " ++ k.name ++ ", text: " ++ Text.quoted s ++ " \x7d)"
  | identifier s => "Identifier(" ++ Text.quoted s ++ ")"
  | modifier m => "Modifier(" ++ m.name ++ ")"
  | comment k s =>
    "Comment(Comment \x7b kind: " ++ k.name ++ ", text: " ++ Text.quoted s ++ " \x7d)"
  | primitiveType t => "PrimitiveType(" ++ t.name ++ ")"
  | arrayType n => "ArrayType \x7b rank: " ++ toString n ++ " \x7d"
  | primitiveExpression lit =>
    "PrimitiveExpression(Literal \x7b value: " ++ lit.value.detail ++ ", raw: " ++
      (match lit.spelling with
       | none => "None"
       | some (l, s) =>
         "Some(RawLiteral \x7b syntax: " ++ l.tag ++ ", text: " ++ Text.quoted s ++ " \x7d)") ++
      " \x7d)"
  | memberReferenceExpression b =>
    "MemberReferenceExpression \x7b null_conditional: " ++ toString b ++ " \x7d"
  | doLoopStatement t u =>
    "DoLoopStatement(DoLoop \x7b test: " ++ t.name ++ ", until: " ++ toString u ++ " \x7d)"
  | binaryOperatorExpression o => "BinaryOperatorExpression(" ++ o.name ++ ")"
  | unaryOperatorExpression o => "UnaryOperatorExpression(" ++ o.name ++ ")"
  | assignmentExpression o => "AssignmentExpression(" ++ o.name ++ ")"
  | castExpression c => "CastExpression(" ++ c.name ++ ")"
  | arrayCreateExpression b => "ArrayCreateExpression(" ++ b.name ++ ")"
  | directionExpression d => "DirectionExpression(" ++ d.name ++ ")"
  | typeDeclaration v => "TypeDeclaration(" ++ v.name ++ ")"
  | constructorInitializer c => "ConstructorInitializer(" ++ c.name ++ ")"
  | accessor a => "Accessor(" ++ a.name ++ ")"
  | parameterDeclaration p => "ParameterDeclaration(" ++ p.name ++ ")"
  | exitStatement e => "ExitStatement(" ++ e.name ++ ")"
  | caseComparison o => "CaseComparison(" ++ o.name ++ ")"
  | k => k.name

def outline : NodeKind → String
  | token _ s => "Token " ++ Text.quoted s
  | identifier s => "Identifier " ++ Text.quoted s
  | modifier m => "Modifier " ++ m.name
  | comment _ s => "Comment " ++ Text.quoted s
  | primitiveType t => "PrimitiveType " ++ t.name
  | primitiveExpression lit => "PrimitiveExpression " ++ lit.value.text
  | k => k.detail

/-- Equality up to spelling: tokens are compared by kind, literals by value and comments by their
trimmed text. -/
def agrees : NodeKind → NodeKind → Bool
  | token a _, token b _ => a == b
  | primitiveExpression a, primitiveExpression b => a.value == b.value
  | comment _ a, comment _ b => Text.trim a.toList == Text.trim b.toList
  | a, b => a == b

/-- Kinds that stand for a single piece of text and have no parts. -/
def isLeaf : NodeKind → Bool
  | token _ _ | identifier _ | modifier _ | comment _ _ | blankLine => true
  | _ => false

def plain : List NodeKind :=
  [blankLine, simpleType, memberType, pointerType, identifierExpression, invocationExpression,
   indexerExpression, parenthesizedExpression, conditionalExpression, asExpression,
   typeTestExpression, typeOfExpression, typeReferenceExpression, thisReferenceExpression,
   baseReferenceExpression, objectCreateExpression, arrayInitializerExpression, blockStatement,
   expressionStatement, variableDeclarationStatement, variableDeclarator, ifElseStatement,
   whileStatement, forStatement, foreachStatement, returnStatement, breakStatement,
   continueStatement, throwStatement, tryCatchStatement, catchClause, switchStatement,
   switchSection, caseLabel, usingStatement, lockStatement, emptyStatement, compilationUnit,
   usingDeclaration, namespaceDeclaration, fieldDeclaration, methodDeclaration,
   constructorDeclaration, propertyDeclaration, eventDeclaration, enumMemberDeclaration,
   fixedStatement, forNextStatement, caseRange]

def ofName? (s : String) : Option NodeKind := plain.find? (·.name == s)

def isExpression : NodeKind → Bool
  | primitiveExpression _ | identifierExpression | memberReferenceExpression _
  | invocationExpression | indexerExpression | binaryOperatorExpression _
  | unaryOperatorExpression _ | assignmentExpression _ | parenthesizedExpression
  | conditionalExpression | castExpression _ | asExpression | typeTestExpression
  | typeOfExpression | typeReferenceExpression | thisReferenceExpression
  | baseReferenceExpression | objectCreateExpression | arrayCreateExpression _
  | arrayInitializerExpression | directionExpression _ => true
  | _ => false

def isType : NodeKind → Bool
  | primitiveType _ | simpleType | memberType | arrayType _ | pointerType => true
  | _ => false

def isStatement : NodeKind → Bool
  | blockStatement | expressionStatement | variableDeclarationStatement | ifElseStatement
  | whileStatement | doLoopStatement _ _ | forStatement | foreachStatement | returnStatement
  | breakStatement | continueStatement | throwStatement | tryCatchStatement | switchStatement
  | usingStatement | lockStatement | emptyStatement | fixedStatement | exitStatement _
  | forNextStatement => true
  | _ => false

def isLoop : NodeKind → Bool
  | whileStatement | doLoopStatement _ _ | forStatement | foreachStatement
  | forNextStatement => true
  | _ => false

/-- The only language that has a kind, for kinds that one language has alone. -/
def onlyIn? : NodeKind → Option Language
  | fixedStatement | pointerType => some .csharp
  | exitStatement _ | forNextStatement | caseRange | caseComparison _ => some .visualBasic
  | _ => none

end NodeKind

end DualSyntax
