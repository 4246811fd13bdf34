import DualSyntax.CSharp.Spelling
import DualSyntax.Writing.Layout

/-!
# Writing C#: names, types and expressions

Parentheses are added where an operand binds looser than its place asks for.  The functions take
the writer of the nodes below as an argument.
-/

namespace DualSyntax.CSharp

open Writing

/-- A name; reserved words are escaped. -/
def writeName (name : String) : Written :=
  put (if Language.csharp.isReserved name then "@" ++ name else name)

variable (node : NodeId → Written)

def writeParenthesized (n : NodeId) : Written := put "(" ++ node n ++ put ")"

/-- An expression, in parentheses if it binds looser than `least`. -/
def writeOperand (n : NodeId) (least : Nat) : Written := do
  if expressionLevel ((← forest).kind n) < least then writeParenthesized node n else node n

def writeLiteral (lit : Literal) : Written :=
  put ((lit.spellingIn .csharp).getD (literalText lit.value))

/-- A binary operation.  The null-coalescing operator groups to the right, all others to the left;
a power is a call. -/
def writeBinary (n : NodeId) (op : BinaryOperator) : Written := do
  let left ← required n .left
  let right ← required n .right
  match op with
  | .power => put "Math.Pow(" ++ node left ++ put ", " ++ node right ++ put ")"
  | op =>
    let level := binaryLevel op
    let (leftLevel, rightLevel) :=
      if op = .nullCoalescing then (level + 1, level) else (level, level + 1)
    writeOperand node left leftLevel ++ space ++ put (binaryText op) ++ space ++
      writeOperand node right rightLevel

/-- A unary operation.  A blank keeps apart two signs that would read as one. -/
def writeUnary (n : NodeId) (op : UnaryOperator) : Written := do
  let operand ← required n .expression
  if op.isSuffix then writeOperand node operand primaryLevel ++ put (unaryText op)
  else
    let glued := match (← forest).kind operand with
      | .unaryOperatorExpression inner => wouldGlue op inner
      | _ => false
    put (unaryText op) ++ onlyIf glued (put " ") ++ writeOperand node operand unaryLevel

/-- An assignment.  Raising to a power is written out. -/
def writeAssignment (n : NodeId) (op : AssignmentOperator) : Written := do
  let left ← required n .left
  let value ← required n .value
  writeOperand node left unaryLevel ++ space ++
    match assignmentText? op with
    | some sign => put sign ++ space ++ writeOperand node value assignmentLevel
    | none => put "= Math.Pow(" ++ node left ++ put ", " ++ node value ++ put ")"

/-- A cast.  Only after a keyword may the operand start with a sign. -/
def writeCast (n : NodeId) : Written := do
  let type ← required n .type
  let operand ← required n .expression
  let least := match (← forest).kind type with
    | .primitiveType _ => unaryLevel
    | _ => primaryLevel
  writeParenthesized node type ++ writeOperand node operand least

def writeRank (rank : Nat) : Written :=
  put "[" ++ inOrder (List.replicate (rank - 1) (put ",")) ++ put "]"

/-- The element type below array types and the ranks of those, outermost first. -/
def elementType (f : Forest) : Nat → NodeId → Writing (NodeId × List Nat)
  | 0, _ => throw .tooDeep
  | fuel + 1, type =>
    match f.kind type with
    | .arrayType rank => do
      let (element, ranks) ← elementType f fuel (← required type .type)
      return (element, rank :: ranks)
    | _ => return (type, [])

/-- The length of a dimension with the given last index. -/
def writeLengthOf (upper : NodeId) : Written := do
  match integer? (← forest) upper with
  | some n => successor n
  | none => writeOperand node upper additiveLevel ++ put " + 1"

/-- The creation of an array: the element type, the lengths, the further ranks, the elements. -/
def writeArrayCreation (n : NodeId) (bounds : ArrayBounds) : Written := do
  let f ← forest
  let type ← required n .type
  let sizes := f.children n .arguments
  let size (m : NodeId) : Written := match bounds with
    | .length => node m
    | .upperBound => writeLengthOf node m
  put "new" ++ space ++
    (if sizes.isEmpty then node type ++ put "[]"
      else do
        let (element, ranks) ← elementType f (f.size + 1) type
        node element ++ put "[" ++ separatedBy (put ", ") (sizes.map size) ++ put "]" ++
          inOrder (ranks.reverse.map writeRank)) ++
    match f.child? n .initializer with
    | none => nothing
    | some elements =>
      if (f.children elements .elements).isEmpty && !sizes.isEmpty then nothing
      else space ++ node elements

def writeCall (n : NodeId) («open» close : String) : Written := do
  let target ← required n .target
  writeOperand node target primaryLevel ++ put «open» ++ commaSeparatedAt node n .arguments ++
    put close

def writeQualified (n : NodeId) : Written := do
  let target ← required n .target
  let name ← required n .identifier
  node target ++ put "." ++ node name

def writeMember (n : NodeId) (nullConditional : Bool) : Written := do
  let target ← required n .target
  let name ← required n .identifier
  writeOperand node target primaryLevel ++ put (if nullConditional then "?." else ".") ++ node name

def writeConditional (n : NodeId) : Written := do
  let condition ← required n .condition
  let yes ← required n .trueExpression
  let no ← required n .falseExpression
  writeOperand node condition coalescingLevel ++ put " ? " ++
    writeOperand node yes assignmentLevel ++ put " : " ++ writeOperand node no assignmentLevel

def writeTypeTest (n : NodeId) (word : String) : Written := do
  let operand ← required n .expression
  let type ← required n .type
  writeOperand node operand relationalLevel ++ space ++ put word ++ space ++ node type

def writeElements (n : NodeId) : Written := do
  let elements := (← forest).children n .elements
  if elements.isEmpty then put "\x7b \x7d"
  else put "\x7b " ++ commaSeparated node elements ++ put " \x7d"

def writeObjectCreation (n : NodeId) : Written := do
  let type ← required n .type
  put "new" ++ space ++ node type ++ put "(" ++ commaSeparatedAt node n .arguments ++ put ")"

end DualSyntax.CSharp
