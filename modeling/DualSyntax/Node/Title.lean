/-!
# Titles

A node keeps its children in titled slots.  A title that occurs once is a field; one that occurs
several times is an ordered collection.
-/

namespace DualSyntax

inductive Title where
  | identifier | modifiers | type | baseTypes | members | fullName | imported | parameters | body
  | declarators | initializer | arguments | target | left | right | value | expression | condition
  | trueExpression | falseExpression | trueStatement | falseStatement | embeddedStatement
  | statements | initializers | iterators | limit | step | tryBlock | catchClauses | finallyBlock
  | switchSections | caseLabels | resourceAcquisition | getter | setter | defaultExpression
  | elements | leftParenthesis | rightParenthesis | leftBrace | rightBrace | leftBracket
  | rightBracket | semicolon | comma | dot | colon | assign | operatorToken | questionMark
  | keyword | endKeyword | terminator | leadingTrivia | trailingTrivia
deriving DecidableEq, Repr, Inhabited

namespace Title

def all : List Title :=
  [.identifier, .modifiers, .type, .baseTypes, .members, .fullName, .imported, .parameters, .body,
   .declarators, .initializer, .arguments, .target, .left, .right, .value, .expression, .condition,
   .trueExpression, .falseExpression, .trueStatement, .falseStatement, .embeddedStatement,
   .statements, .initializers, .iterators, .limit, .step, .tryBlock, .catchClauses, .finallyBlock,
   .switchSections, .caseLabels, .resourceAcquisition, .getter, .setter, .defaultExpression,
   .elements, .leftParenthesis, .rightParenthesis, .leftBrace, .rightBrace, .leftBracket,
   .rightBracket, .semicolon, .comma, .dot, .colon, .assign, .operatorToken, .questionMark,
   .keyword, .endKeyword, .terminator, .leadingTrivia, .trailingTrivia]

def name : Title → String
  | identifier => "Identifier" | modifiers => "Modifiers" | type => "Type"
  | baseTypes => "BaseTypes" | members => "Members" | fullName => "Name" | imported => "Import"
  | parameters => "Parameters" | body => "Body" | declarators => "Variables"
  | initializer => "Initializer" | arguments => "Arguments" | target => "Target" | left => "Left"
  | right => "Right" | value => "Value" | expression => "Expression" | condition => "Condition"
  | trueExpression => "TrueExpression" | falseExpression => "FalseExpression"
  | trueStatement => "TrueStatement" | falseStatement => "FalseStatement"
  | embeddedStatement => "EmbeddedStatement" | statements => "Statements"
  | initializers => "Initializers" | iterators => "Iterators" | limit => "Limit" | step => "Step"
  | tryBlock => "TryBlock" | catchClauses => "CatchClauses" | finallyBlock => "FinallyBlock"
  | switchSections => "SwitchSections" | caseLabels => "CaseLabels"
  | resourceAcquisition => "ResourceAcquisition" | getter => "Getter" | setter => "Setter"
  | defaultExpression => "DefaultExpression" | elements => "Elements"
  | leftParenthesis => "LeftParenthesis" | rightParenthesis => "RightParenthesis"
  | leftBrace => "LeftBrace" | rightBrace => "RightBrace" | leftBracket => "LeftBracket"
  | rightBracket => "RightBracket" | semicolon => "Semicolon" | comma => "Comma" | dot => "Dot"
  | colon => "Colon" | assign => "Assign" | operatorToken => "OperatorToken"
  | questionMark => "QuestionMark" | keyword => "Keyword" | endKeyword => "EndKeyword"
  | terminator => "Terminator" | leadingTrivia => "LeadingTrivia"
  | trailingTrivia => "TrailingTrivia"

def ofName? (s : String) : Option Title := all.find? (·.name == s)

/-- Titles of punctuation, keywords and trivia.  Structural comparison looks past them. -/
def isLexical (t : Title) : Bool := leftParenthesis.ctorIdx ≤ t.ctorIdx

end Title

end DualSyntax
