import DualSyntax.VisualBasic.Spelling
import DualSyntax.Writing.Layout

/-!
# Writing Visual Basic: names, types and expressions

Parentheses are added where an operand binds looser than its place asks for.  Increments and
assignments have a form only where they stand as statements.  The functions take the writer of the
nodes below as an argument.
-/

namespace DualSyntax.VisualBasic

open Writing

/-- A name; reserved words are escaped. -/
def writeName (name : String) : Written :=
  put (if Language.visualBasic.isReserved name then "[" ++ name ++ "]" else name)

def isInferred (f : Forest) (type : NodeId) : Bool :=
  f.kind type matches .simpleType && f.nameOf? type == some "var"

def isNull (f : Forest) (n : NodeId) : Bool :=
  match f.kind n with
  | .primitiveExpression ⟨.null, _⟩ => true
  | _ => false

/-- Whether an expression stands as a statement. -/
def atStatementLevel (f : Forest) (n : NodeId) : Bool :=
  match f.parent n with
  | none => true
  | some p =>
    f.kind p matches .expressionStatement ||
      f.titleInParent? n == some .iterators || f.titleInParent? n == some .initializers

/-- The operator that compares two operands: against null, references are compared. -/
def comparison (f : Forest) (left right : NodeId) (op : BinaryOperator) : BinaryOperator :=
  if isNull f left || isNull f right then
    match op with
    | .equality => .referenceEquality
    | .inEquality => .referenceInequality
    | op => op
  else op

variable (node : NodeId → Written)

def writeAsClause (type : Option NodeId) : Written := do
  match type with
  | none => nothing
  | some type =>
    if isInferred (← forest) type then nothing
    else put " " ++ put "As" ++ space ++ node type

/-- An expression, in parentheses if it binds looser than `least`. -/
def writeOperand (n : NodeId) (least : Nat) : Written := do
  if expressionLevel ((← forest).kind n) < least then put "(" ++ node n ++ put ")" else node n

def writeLiteral (lit : Literal) : Written :=
  put ((lit.spellingIn .visualBasic).getD (literalText lit.value))

/-- Two operands with an operator between them; all operators group to the left. -/
def writeInfixed (left : NodeId) (op : BinaryOperator) (right : NodeId) : Written :=
  writeOperand node left (binaryLevel op) ++ space ++ put (binaryText op) ++ space ++
    writeOperand node right (binaryLevel op + 1)

def writeBinary (n : NodeId) (op : BinaryOperator) : Written := do
  let left ← required n .left
  let right ← required n .right
  if op = .nullCoalescing then
    put "If" ++ put "(" ++ node left ++ put ", " ++ node right ++ put ")"
  else writeInfixed node left (comparison (← forest) left right op) right

def writeUnary (n : NodeId) (op : UnaryOperator) : Written := do
  let f ← forest
  let operand ← required n .expression
  let signed (sign : String) : Written :=
    put sign ++ onlyIf (f.kind operand matches .unaryOperatorExpression _) (put " ") ++
      writeOperand node operand negationLevel
  let counted (change : String) : Written :=
    if atStatementLevel f n then writeOperand node operand primaryLevel ++ put change
    else unsupported n
  match op with
  | .not | .bitNot => put "Not" ++ space ++ writeOperand node operand notLevel
  | .minus => signed "-"
  | .plus => signed "+"
  | .increment | .postIncrement => counted " += 1"
  | .decrement | .postDecrement => counted " -= 1"

/-- An assignment.  A compound one that the language lacks is written out. -/
def writeAssignment (n : NodeId) (op : AssignmentOperator) : Written := do
  if !atStatementLevel (← forest) n then unsupported n
  else
    let left ← required n .left
    let value ← required n .value
    writeOperand node left primaryLevel ++ space ++
      match assignmentText op with
      | .ok sign => put sign ++ space ++ node value
      | .error op => put "= " ++ writeInfixed node left op value

def writeConversion (n : NodeId) (function : String) : Written := do
  let operand ← required n .expression
  let type ← required n .type
  put function ++ put "(" ++ node operand ++ put ", " ++ node type ++ put ")"

def writeRank (rank : Nat) : Written :=
  put "(" ++ inOrder (List.replicate (rank - 1) (put ",")) ++ put ")"

/-- The last index of a dimension with the given length. -/
def writeUpperBound (length : NodeId) : Written := do
  match integer? (← forest) length with
  | some (n + 1) => put (toString n)
  | _ => writeOperand node length additiveLevel ++ put " - 1"

def writeBounds (sizes : List NodeId) (bounds : ArrayBounds) : Written :=
  let size (n : NodeId) : Written := match bounds with
    | .upperBound => node n
    | .length => writeUpperBound node n
  put "(" ++ separatedBy (put ", ") (sizes.map size) ++ put ")"

/-- The element type below array types and the ranks of those, outermost first. -/
def elementType (f : Forest) : Nat → NodeId → Writing (NodeId × List Nat)
  | 0, _ => throw .tooDeep
  | fuel + 1, type =>
    match f.kind type with
    | .arrayType rank => do
      let (element, ranks) ← elementType f fuel (← required type .type)
      return (element, rank :: ranks)
    | _ => return (type, [])

/-- The creation of an array.  Its elements, even if there are none, tell it from the creation of
an object. -/
def writeArrayCreation (n : NodeId) (bounds : ArrayBounds) : Written := do
  let f ← forest
  let type ← required n .type
  let (element, ranks) ← elementType f (f.size + 1) type
  put "New" ++ space ++ node element ++ writeBounds node (f.children n .arguments) bounds ++
    inOrder (ranks.reverse.map writeRank) ++ space ++ childOr node n .initializer "\x7b\x7d"

def writeCall (n : NodeId) : Written := do
  let target ← required n .target
  writeOperand node target primaryLevel ++ put "(" ++ commaSeparatedAt node n .arguments ++ put ")"

def writeQualified (n : NodeId) : Written := do
  let target ← required n .target
  let name ← required n .identifier
  node target ++ put "." ++ node name

def writeMember (n : NodeId) (nullConditional : Bool) : Written := do
  let target ← required n .target
  let name ← required n .identifier
  writeOperand node target primaryLevel ++ put (if nullConditional then "?." else ".") ++ node name

def writeConditional (n : NodeId) : Written := do
  let condition ← required n .condition
  let yes ← required n .trueExpression
  let no ← required n .falseExpression
  put "If" ++ put "(" ++ node condition ++ put ", " ++ node yes ++ put ", " ++ node no ++ put ")"

def writeTypeTest (n : NodeId) : Written := do
  let operand ← required n .expression
  let type ← required n .type
  put "TypeOf" ++ space ++ writeOperand node operand primaryLevel ++ put " " ++ put "Is" ++
    space ++ node type

def writeObjectCreation (n : NodeId) : Written := do
  let type ← required n .type
  put "New" ++ space ++ node type ++ put "(" ++ commaSeparatedAt node n .arguments ++ put ")"

end DualSyntax.VisualBasic
