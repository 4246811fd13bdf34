import DualSyntax.Semantics.Overloads

/-!
# Resolution

What expressions and type nodes mean.  Every question has one answer; what cannot be resolved is an
error with a message.
-/

namespace DualSyntax.Semantics

/-- The meaning of a node that lacks a part. -/
def malformed (n : NodeId) : Ask Meaning := do
  return .failed ("malformed `" ++ ((← forest).kind n).name ++ "`")

def isInferred (f : Forest) (type : NodeId) : Bool :=
  f.kind type matches .simpleType && f.nameOf? type == some "var"

variable (answers : Answers)

def meaningAt (n : NodeId) : Ask Meaning := do answers.expression n (← scopesAt n)

/-! ## Types of definitions -/

def inferredType (decl : NodeId) (initializer : Option NodeId) : Ask (Option TypeRef) :=
  match initializer with
  | none => return none
  | some n => guarded .type decl do return (← meaningAt answers n).type?

def declaredOrInferred (decl : NodeId) (type initializer : Option NodeId) :
    Ask (Option TypeRef) := do
  let f ← forest
  match type.filter fun t => !isInferred f t with
  | some n => typeAt answers n
  | none => inferredType answers decl initializer

def elementOf : TypeRef → Option TypeRef
  | .array element _ => some element
  | _ => none

def typeOf (d : Definition) : Ask (Option TypeRef) := do
  let f ← forest
  match d with
  | .ofNamespace _ | .ofMethod _ => return none
  | .ofType d =>
    match d.origin with
    | .builtin t => return some (.known t)
    | .declared decl _ => return some (.declared decl)
  | .ofField d =>
    if d.isEnumMember then return some (.declared d.owner)
    else declaredOrInferred answers d.decl d.type d.initializer
  | .ofProperty d => typeAt? answers d.type
  | .ofEvent d => typeAt? answers d.type
  | .ofVariable d =>
    if d.kind = .iteration then
      match d.type.filter fun t => !isInferred f t with
      | some n => typeAt answers n
      | none => return (← inferredType answers d.decl d.initializer).bind elementOf
    else declaredOrInferred answers d.decl d.type d.initializer

/-- The meaning of a name that stands for candidates; only a single one has a type. -/
def memberOf (candidates : List Definition) : Ask Meaning := do
  match candidates with
  | [d] => return .member candidates (← typeOf answers d)
  | _ => return .member candidates none

def memberOr (name : String) (candidates : List Definition) : Ask Meaning :=
  if candidates.isEmpty then return .unknown name else memberOf answers candidates

/-! ## Type nodes -/

def resolveType (n : NodeId) (scopes : List Scope) : Ask Meaning := do
  let w ← read
  let f := w.forest
  match f.kind n with
  | .primitiveType t => memberOf answers [.builtin t]
  | .simpleType =>
    match f.nameOf? n with
    | none => malformed n
    | some name =>
      let found ← lookup answers name Definition.isTypeLike scopes
      if found.isEmpty then memberOr answers name (builtinWithKeyword? w name).toList
      else memberOf answers found
  | .memberType =>
    match f.child? n .target, f.nameOf? n with
    | some target, some name =>
      let target ← answers.type target scopes
      let found ← match target.scope? with
        | some scope => lookupIn answers name scope
        | none => pure []
      memberOr answers name (found.filter Definition.isTypeLike)
    | _, _ => malformed n
  | .arrayType rank =>
    match f.child? n .type with
    | none => malformed n
    | some element =>
      match ← answers.type element scopes with
      | .member candidates (some type) => return .member candidates (some (.array type rank))
      | other => return other
  | .pointerType =>
    match f.child? n .type with
    | none => malformed n
    | some element =>
      match ← answers.type element scopes with
      | .member candidates _ => return .member candidates none
      | other => return other
  | kind => return .failed ("`" ++ kind.name ++ "` is not a type")

/-! ## Expressions -/

def resolveChild (n : NodeId) (t : Title) (scopes : List Scope) : Ask Meaning := do
  match (← forest).child? n t with
  | some c => answers.expression c scopes
  | none => malformed n

def resolveMember (target : Meaning) (name : String) : Ask Meaning := do
  let found ← match target.scope? with
    | some scope => lookupIn answers name scope
    | none => pure []
  memberOr answers name found

def elementMeaning (target : Meaning) : Meaning :=
  match target with
  | .member candidates (some (.array element _)) => .member candidates (some element)
  | .unknown _ | .error _ _ => target
  | _ => .failed "indexer on a non-array"

def resolveArguments (n : NodeId) (scopes : List Scope) : Ask (List Meaning) := do
  ((← forest).children n .arguments).mapM fun a => answers.expression a scopes

/-- The meaning of a call; an array may be called with an index. -/
def resolveCall (n : NodeId) (scopes : List Scope) : Ask Meaning := do
  let target ← resolveChild answers n .target scopes
  let arguments ← resolveArguments answers n scopes
  match target with
  | .member candidates type =>
    let methods := candidates.filter fun d => d.method?.isSome
    if !methods.isEmpty then pickOverload answers methods arguments
    else if type matches some (.array _ _) then return elementMeaning target
    else return .failed "invoked expression is not a method"
  | .unknown _ | .error _ _ => return target
  | _ => return .failed "invoked expression is not a method"

def constructorsOf : TypeRef → Ask (List Definition)
  | .declared decl => do
    match (← definitionOf decl).bind Definition.type? with
    | some type => return (← type.constructors.mapM definitionOf).reduceOption
    | none => return []
  | _ => return []

/-- The meaning of the creation of an object.  A type without constructors is created without
arguments. -/
def resolveCreation (n : NodeId) (scopes : List Scope) : Ask Meaning := do
  match (← forest).child? n .type with
  | none => malformed n
  | some typeNode =>
    let created ← answers.type typeNode scopes
    match created.type? with
    | none => return created
    | some type =>
      let arguments ← resolveArguments answers n scopes
      let constructors ← constructorsOf type
      if constructors.isEmpty then
        if !arguments.isEmpty && type matches .declared _ then
          let name := created.definition?.elim "" Definition.name
          return .failed ("`" ++ name ++ "` has no constructor taking " ++
            toString arguments.length ++ " argument(s)")
        else return .call none arguments (some type)
      else
        match ← pickOverload answers constructors arguments with
        | .call method arguments _ => return .call method arguments (some type)
        | other => return other

/-- The meaning of a conditional expression: the branch that a constant condition chooses. -/
def resolveConditional (n : NodeId) (scopes : List Scope) : Ask Meaning := do
  let condition ← resolveChild answers n .condition scopes
  match ← answers.constant condition with
  | some (.boolean true) => resolveChild answers n .trueExpression scopes
  | some (.boolean false) => resolveChild answers n .falseExpression scopes
  | _ => return .failed "conditional on a non-constant condition"

def resolveCast (n : NodeId) (scopes : List Scope) : Ask Meaning := do
  match (← forest).child? n .type with
  | none => malformed n
  | some typeNode =>
    let target ← answers.type typeNode scopes
    match target.type? with
    | none => return target
    | some type => return .conversion type (← resolveChild answers n .expression scopes)

def resolveBinary (n : NodeId) (op : BinaryOperator) (scopes : List Scope) : Ask Meaning := do
  let left ← resolveChild answers n .left scopes
  let right ← resolveChild answers n .right scopes
  let a ← answers.constant left
  let b ← answers.constant right
  match a, b with
  | some a, some b =>
    match Folding.binary? op a b with
    | some value =>
      let type := Folding.binaryType? op left.type? right.type?
      return .constant value (some (type.getD (Folding.typeOf value)))
    | none =>
      return .failed ("can't evaluate `" ++ op.name ++ "` on " ++ a.detail ++ " and " ++ b.detail)
  | _, _ => return .failed ("`" ++ op.name ++ "` is only evaluated on constants")

def resolveUnary (n : NodeId) (op : UnaryOperator) (scopes : List Scope) : Ask Meaning := do
  let operand ← resolveChild answers n .expression scopes
  match ← answers.constant operand with
  | none => return .failed ("`" ++ op.name ++ "` is only evaluated on constants")
  | some value =>
    match Folding.unary? op value with
    | some result => return .constant result operand.type?
    | none => return .failed ("can't evaluate `" ++ op.name ++ "` on " ++ value.detail)

def resolveExpression (n : NodeId) (scopes : List Scope) : Ask Meaning := do
  let f ← forest
  match f.kind n with
  | .primitiveExpression literal =>
    let type : Option TypeRef := match literal.value with
      | .null => some .null
      | value => value.type?.map .known
    return .constant (.ofLiteral literal.value) type
  | .identifierExpression =>
    match f.nameOf? n with
    | some name => memberOr answers name (← lookup answers name (fun _ => true) scopes)
    | none => malformed n
  | .memberReferenceExpression _ =>
    match f.child? n .target, f.nameOf? n with
    | some target, some name => resolveMember answers (← answers.expression target scopes) name
    | _, _ => malformed n
  | .invocationExpression => resolveCall answers n scopes
  | .indexerExpression => return elementMeaning (← resolveChild answers n .target scopes)
  | .binaryOperatorExpression op => resolveBinary answers n op scopes
  | .unaryOperatorExpression op => resolveUnary answers n op scopes
  | .assignmentExpression _ => resolveChild answers n .left scopes
  | .parenthesizedExpression | .directionExpression _ => resolveChild answers n .expression scopes
  | .conditionalExpression => resolveConditional answers n scopes
  | .castExpression _ | .asExpression => resolveCast answers n scopes
  | .typeReferenceExpression =>
    match f.child? n .type with
    | some type => answers.type type scopes
    | none => malformed n
  | .thisReferenceExpression => return .this ((Scope.enclosingType? scopes).map .declared)
  | .baseReferenceExpression =>
    match Scope.enclosingType? scopes with
    | some type => return .base (some (← baseClass answers type))
    | none => return .base none
  | .objectCreateExpression => resolveCreation answers n scopes
  | .primitiveType _ | .simpleType | .memberType | .arrayType _ | .pointerType =>
    answers.type n scopes
  | kind =>
    match kind with
    | .typeTestExpression | .typeOfExpression | .arrayCreateExpression _
    | .arrayInitializerExpression => return .failed ("`" ++ kind.name ++ "` is not resolved")
    | kind => return .failed ("`" ++ kind.name ++ "` is not an expression")

/-! ## Constants -/

def constantDeclaration? : Definition → Option (NodeId × NodeId)
  | .ofField d => if d.isConst then d.initializer.map (d.decl, ·) else none
  | .ofVariable d => if d.isConst then d.initializer.map (d.decl, ·) else none
  | _ => none

/-- The constant value of a meaning, if it has one; constants are followed to their values. -/
def constantOf : Meaning → Ask (Option ConstantValue)
  | .constant value _ => return some value
  | .member [d] _ =>
    match constantDeclaration? d with
    | some (decl, initializer) =>
      guarded .value decl do answers.constant (← meaningAt answers initializer)
    | none => return none
  | .conversion (.known t) operand => do
    return (← constantOf operand).bind (Folding.convert? · t)
  | _ => return none

/-! ## The answers to all questions -/

/-- The answers to questions that lead to deeper ones at most a number of times. -/
def answersUpTo : Nat → Answers
  | 0 => ⟨fun _ _ => failure, fun _ _ => failure, fun _ => failure⟩
  | fuel + 1 =>
    { type := fun n scopes => resolveType (answersUpTo fuel) n scopes
      expression := fun n scopes => resolveExpression (answersUpTo fuel) n scopes
      constant := fun m => constantOf (answersUpTo fuel) m }

/-- Enough fuel for any question about a tree: no aspect of a node is worked out inside itself, and
between two of them a question goes no deeper than the tree. -/
def enoughFuel (f : Forest) : Nat := (3 * f.size + 4) * (2 * f.size + 8)

/-- The answers to all questions about a tree. -/
def answersFor (f : Forest) : Answers := answersUpTo (enoughFuel f)

end DualSyntax.Semantics
