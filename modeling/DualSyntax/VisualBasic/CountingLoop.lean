import DualSyntax.Forest.Basic
import DualSyntax.Language.Basic

/-!
# Counting loops

A `for` statement with one variable that is compared with a limit and changed by a step counts; it
can be written as a loop from a start to a limit.
-/

namespace DualSyntax.VisualBasic

inductive LoopStep where
  | one
  | minusOne
  | up (amount : NodeId)
  | down (amount : NodeId)
deriving DecidableEq, Repr, Inhabited

def LoopStep.isUp : LoopStep → Bool
  | one | up _ => true
  | minusOne | down _ => false

structure CountingLoop where
  name : NodeId
  type : Option NodeId
  start : NodeId
  /-- What the variable is compared with. -/
  limit : NodeId
  /-- Whether the loop ends before the limit is reached. -/
  isStrict : Bool
  step : LoopStep
deriving DecidableEq, Repr, Inhabited

namespace CountingLoop

def variableName? (f : Forest) (n : NodeId) : Option String :=
  match f.kind n with
  | .identifierExpression => f.nameOf? n
  | _ => none

/-- The variable, its type and its start, if a node sets exactly one variable. -/
def start? (f : Forest) (n : NodeId) : Option (NodeId × Option NodeId × NodeId) :=
  match f.kind n with
  | .variableDeclarationStatement =>
    match f.children n .declarators with
    | [v] => do
      let type := (f.child? n .type).or (f.child? v .type)
      let name ← f.child? v .identifier
      return (name, type, ← f.child? v .initializer)
    | _ => none
  | .expressionStatement => do
    let assignment ← f.child? n .expression
    match f.kind assignment with
    | .assignmentExpression .assign =>
      let left ← f.child? assignment .left
      let _ ← variableName? f left
      let name ← f.child? left .identifier
      return (name, none, ← f.child? assignment .value)
    | _ => none
  | _ => none

def step? (f : Forest) (n : NodeId) : Option (LoopStep × NodeId) :=
  match f.kind n with
  | .unaryOperatorExpression op => do
    let step ← match op with
      | .increment | .postIncrement => some LoopStep.one
      | .decrement | .postDecrement => some LoopStep.minusOne
      | _ => none
    return (step, ← f.child? n .expression)
  | .assignmentExpression .add => do
    let amount ← f.child? n .value
    return (.up amount, ← f.child? n .left)
  | .assignmentExpression .subtract => do
    let amount ← f.child? n .value
    return (.down amount, ← f.child? n .left)
  | _ => none

/-- Whether a comparison ends before its limit, if it goes with the direction of a step. -/
def strictness? : BinaryOperator → Bool → Option Bool
  | .lessThan, true | .greaterThan, false => some true
  | .lessThanOrEqual, true | .greaterThanOrEqual, false => some false
  | _, _ => none

/-- The counting loop that a `for` statement is.  The same variable is set, compared and changed;
its name is compared as Visual Basic compares names. -/
def of? (f : Forest) (n : NodeId) : Option CountingLoop :=
  match f.children n .initializers, f.children n .iterators with
  | [initializer], [iterator] => do
    let iterator ← f.child? iterator .expression
    let (name, type, start) ← start? f initializer
    match f.kind name with
    | .identifier variableName =>
      let isVariable (e : NodeId) : Bool :=
        (variableName? f e).any fun s => Language.visualBasic.sameName s variableName
      let condition ← f.child? n .condition
      match f.kind condition with
      | .binaryOperatorExpression op =>
        if !isVariable (← f.child? condition .left) then none
        else
          let limit ← f.child? condition .right
          let (step, target) ← step? f iterator
          if !isVariable target then none
          else
            let isStrict ← strictness? op step.isUp
            return { name, type, start, limit, isStrict, step }
      | _ => none
    | _ => none
  | _, _ => none

end CountingLoop

end DualSyntax.VisualBasic
