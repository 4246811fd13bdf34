import DualSyntax.Forest.Agree
import DualSyntax.Forest.Walk
import DualSyntax.VisualBasic.CountingLoop
import DualSyntax.VisualBasic.Expressions

/-!
# Writing Visual Basic: statements

Every statement stands on a line of its own.  Blocks inside blocks are spliced in, empty statements
are dropped, and a `for` statement that does not count becomes a `While` loop.
-/

namespace DualSyntax.VisualBasic

open Writing

inductive BodyLine where
  | trivia (title : Title) (n : NodeId)
  | statement (n : NodeId)
deriving DecidableEq, Repr, Inhabited

/-- The lines of statements.  Blocks are spliced in and empty statements dropped; their comments
stay. -/
def bodyLines (f : Forest) : Nat → List NodeId → List BodyLine
  | 0, _ => []
  | fuel + 1, ns =>
    ns.flatMap fun n =>
      .trivia .leadingTrivia n ::
        match f.kind n with
        | .blockStatement =>
          bodyLines f fuel (f.children n .statements) ++ [.trivia .trailingTrivia n]
        | .emptyStatement => []
        | _ => [.statement n]

/-- The variable of a declaration whose initializer only sizes an array: the sizes, what they count
and the element type. -/
def sizedArray? (f : Forest) (type initializer : NodeId) :
    Option (List NodeId × ArrayBounds × NodeId) :=
  match f.kind initializer, f.kind type with
  | .arrayCreateExpression bounds, .arrayType rank => do
    let sizes := f.children initializer .arguments
    let hasElements := (f.child? initializer .initializer).any fun i =>
      !(f.children i .elements).isEmpty
    let element ← f.child? initializer .type
    if sizes.length = rank && !hasElements && f.agree? (f.child? type .type) f (some element) then
      return (sizes, bounds, element)
    else none
  | _, _ => none

/-- The innermost loop around a node. -/
def enclosingLoop? (f : Forest) (n : NodeId) : Option NodeId :=
  (f.ancestors n).find? fun a => (f.kind a).isLoop

/-- The innermost loop or `switch` around a node. -/
def enclosingTarget? (f : Forest) (n : NodeId) : Option NodeId :=
  (f.ancestors n).find? fun a => (f.kind a).isLoop || f.kind a matches .switchStatement

/-- The word for the construct that a loop or `switch` is written as. -/
def targetWord? (f : Forest) (target : NodeId) : Option String :=
  match f.kind target with
  | .whileStatement => some "While"
  | .doLoopStatement _ _ => some "Do"
  | .foreachStatement | .forNextStatement => some "For"
  | .forStatement => some (if (CountingLoop.of? f target).isSome then "For" else "While")
  | .switchStatement => some "Select"
  | _ => none

/-- Whether a `continue` in the body of a `for` statement would skip its iterators, if they were
written at the end of the body. -/
def skipsIterators (f : Forest) (n body : NodeId) : Bool :=
  (f.descendants body).any fun d =>
    f.kind d matches .continueStatement && enclosingLoop? f d == some n

def isSimple : NodeKind → Bool
  | .expressionStatement | .returnStatement | .throwStatement | .exitStatement _ | .breakStatement
  | .continueStatement => true
  | _ => false

variable (node : NodeId → Written)

def writeStatements (ns : List NodeId) : Written := do
  let f ← forest
  inOrder <| (bodyLines f (f.size + 1) ns).map fun
    | .trivia t n => trivia t n
    | .statement n => node n ++ newLine

def writeBody (n : NodeId) : Written := indented (writeStatements node [n])

def writeConstruct (body : NodeId) (last : String) : Written :=
  newLine ++ writeBody node body ++ put last

/-- A variable with its type and its initializer.  The sizes of a new array follow the name, and a
new object of the declared type names that type. -/
def writeVariable (n : NodeId) (type : Option NodeId) : Written := do
  let f ← forest
  let name ← required n .identifier
  let initializer := f.child? n .initializer
  let type := type.filter fun t => !isInferred f t
  let plain : Written :=
    node name ++ writeAsClause node type ++
      match initializer with
      | some value => put " = " ++ node value
      | none => nothing
  match type, initializer with
  | some type, some value =>
    match sizedArray? f type value with
    | some (sizes, bounds, element) =>
      node name ++ writeBounds node sizes bounds ++ writeAsClause node (some element)
    | none =>
      if f.kind value matches .objectCreateExpression &&
          f.agree? (some type) f (f.child? value .type) then
        node name ++ put " " ++ put "As" ++ space ++ node value
      else plain
  | _, _ => plain

/-- The variables of a declaration.  Several without initializers and of one type share it. -/
def writeDeclarators (n : NodeId) : Written := do
  let f ← forest
  let declared := f.children n .declarators
  let typed := declared.map fun v => (v, (f.child? n .type).or (f.child? v .type))
  let shared : Option NodeId := match typed.map (·.2) with
    | some first :: rest => if rest.all fun t => f.agree? (some first) f t then some first else none
    | _ => none
  let noneInitialized := declared.all fun v => (f.child? v .initializer).isNone
  match shared with
  | some type =>
    if noneInitialized && 1 < declared.length then
      separatedBy (put ", ") (declared.map fun v => do node (← required v .identifier)) ++
        writeAsClause node (some type)
    else separatedBy (put ", ") (typed.map fun (v, t) => writeVariable node v t)
  | none => separatedBy (put ", ") (typed.map fun (v, t) => writeVariable node v t)

def writeLocalDeclaration (n : NodeId) : Written := do
  let page ← read
  let word := if page.forest.hasModifier n .modConst then "Const" else "Dim"
  onlyIf (!page.inHeader) (put word ++ space) ++ writeDeclarators node n

def writeTest (word : String) (condition : NodeId) : Written :=
  put word ++ space ++ node condition ++ put " " ++ put "Then"

/-- The alternatives of an `If`, to a bounded number. -/
def writeAlternatives (f : Forest) : Nat → Option NodeId → Written
  | 0, _ => throw .tooDeep
  | _ + 1, none => nothing
  | fuel + 1, some n =>
    if f.kind n matches .ifElseStatement then do
      let condition ← required n .condition
      let yes ← required n .trueStatement
      writeTest node "ElseIf" condition ++ newLine ++ writeBody node yes ++
        writeAlternatives f fuel (f.child? n .falseStatement)
    else put "Else" ++ newLine ++ writeBody node n

def writeIf (n : NodeId) : Written := do
  let f ← forest
  let condition ← required n .condition
  let yes ← required n .trueStatement
  let no := f.child? n .falseStatement
  if no.isNone && isSimple (f.kind yes) then
    writeTest node "If" condition ++ space ++ node yes
  else
    writeTest node "If" condition ++ newLine ++ writeBody node yes ++
      writeAlternatives node f (f.size + 1) no ++ put "End If"

/-- A loop that tests before or after its body or not at all. -/
def writeDoLoop (n : NodeId) (test : LoopTest) (isUntil : Bool) : Written := do
  let body ← required n .embeddedStatement
  let condition := (← forest).child? n .condition
  let testAt (place : LoopTest) : Written :=
    match condition with
    | some c =>
      onlyIf (test == place) <|
        space ++ put (if isUntil then "Until" else "While") ++ space ++ node c
    | none => nothing
  put "Do" ++ testAt .pre ++ newLine ++ writeBody node body ++ put "Loop" ++ testAt .post

/-- The limit of a counting loop, one less or more if the loop ends before it. -/
def writeLimit (l : CountingLoop) : Written := do
  if !l.isStrict then node l.limit
  else
    match l.step.isUp, integer? (← forest) l.limit with
    | true, some (n + 1) => put (toString n)
    | false, some n => successor n
    | isUp, _ =>
      writeOperand node l.limit additiveLevel ++ put (if isUp then " - 1" else " + 1")

def writeStep : LoopStep → Written
  | .one => nothing
  | .minusOne => put " " ++ put "Step" ++ put " -1"
  | .up n => put " " ++ put "Step" ++ space ++ node n
  | .down n => put " " ++ put "Step" ++ put " -" ++ writeOperand node n negationLevel

def writeCountingLoop (l : CountingLoop) (body : NodeId) : Written :=
  put "For" ++ space ++ node l.name ++ writeAsClause node l.type ++ put " = " ++ node l.start ++
    put " " ++ put "To" ++ space ++ writeLimit node l ++ writeStep node l.step ++
    writeConstruct node body "Next"

/-- A `for` statement: a counting loop, or its initializers and a `While` loop with its iterators
at the end. -/
def writeFor (n : NodeId) : Written := do
  let f ← forest
  let body ← required n .embeddedStatement
  match CountingLoop.of? f n with
  | some l => writeCountingLoop node l body
  | none =>
    let iterators := f.children n .iterators
    if !iterators.isEmpty && skipsIterators f n body then unsupported n
    else
      let line (m : NodeId) : Written := node m ++ newLine
      inOrder ((f.children n .initializers).map line) ++ put "While" ++ space ++
        childOr node n .condition "True" ++ newLine ++
        indented (writeStatements node [body] ++ inOrder (iterators.map line)) ++ put "End While"

def writeForeach (n : NodeId) : Written := do
  let name ← required n .identifier
  let collection ← required n .expression
  let body ← required n .embeddedStatement
  put "For Each" ++ space ++ node name ++ writeAsClause node ((← forest).child? n .type) ++
    put " " ++ put "In" ++ space ++ node collection ++ writeConstruct node body "Next"

def writeForNext (n : NodeId) : Written := do
  let name ← required n .identifier
  let start ← required n .initializer
  let limit ← required n .limit
  let body ← required n .embeddedStatement
  put "For" ++ space ++ node name ++ writeAsClause node ((← forest).child? n .type) ++ put " = " ++
    node start ++ put " " ++ put "To" ++ space ++ node limit ++
    ifChild node n .step (put " " ++ put "Step" ++ space) ++ writeConstruct node body "Next"

def writeWhile (n : NodeId) : Written := do
  let condition ← required n .condition
  let body ← required n .embeddedStatement
  put "While" ++ space ++ node condition ++ writeConstruct node body "End While"

def writeJump (n : NodeId) (word : String) (target : Forest → NodeId → Option NodeId) :
    Written := do
  let f ← forest
  match (target f n).bind (targetWord? f) with
  | some construct => put word ++ space ++ put construct
  | none => unsupported n

def writeKeywordStatement (n : NodeId) (word : String) : Written :=
  put word ++ ifChild node n .expression space

def writeTry (n : NodeId) : Written := do
  let f ← forest
  let block ← required n .tryBlock
  put "Try" ++ newLine ++ writeBody node block ++ inOrder ((f.children n .catchClauses).map node) ++
    (match f.child? n .finallyBlock with
      | some final => put "Finally" ++ newLine ++ writeBody node final
      | none => nothing) ++
    put "End Try"

/-- A `Catch` clause; a caught exception needs a name. -/
def writeCatch (n : NodeId) : Written := do
  let f ← forest
  let body ← required n .body
  put "Catch" ++
    (match f.child? n .type with
      | none => nothing
      | some type =>
        space ++
          (match f.child? n .identifier with
            | some name => node name
            | none => writeName "ex") ++
          writeAsClause node (some type)) ++
    newLine ++ writeBody node body

def writeSwitch (n : NodeId) : Written := do
  let expression ← required n .expression
  put "Select Case" ++ space ++ node expression ++ newLine ++
    indented (inOrder <| ((← forest).children n .switchSections).map fun s =>
      leadingTrivia s ++ node s) ++
    put "End Select"

/-- A section of a `Select`.  A `break` at its end goes without saying. -/
def writeSection (n : NodeId) : Written := do
  let f ← forest
  let labels := f.children n .caseLabels
  let isDefault := labels.any fun l =>
    f.kind l matches .caseLabel && (f.child? l .expression).isNone
  let statements := f.children n .statements
  let kept :=
    if statements.getLast?.any fun s => f.kind s matches .breakStatement then statements.dropLast
    else statements
  put "Case" ++ space ++ (if isDefault then put "Else" else commaSeparated node labels) ++
    newLine ++ indented (writeStatements node kept)

def writeCaseRange (n : NodeId) : Written := do
  let first ← required n .expression
  let last ← required n .limit
  node first ++ space ++ put "To" ++ space ++ node last

def writeCaseComparison (n : NodeId) (op : BinaryOperator) : Written := do
  let value ← required n .expression
  put "Is" ++ space ++ put (binaryText op) ++ space ++ node value

def writeUsing (n : NodeId) : Written := do
  let resource ← required n .resourceAcquisition
  let body ← required n .embeddedStatement
  put "Using" ++ space ++ header (node resource) ++ writeConstruct node body "End Using"

def writeLock (n : NodeId) : Written := do
  let expression ← required n .expression
  let body ← required n .embeddedStatement
  put "SyncLock" ++ space ++ node expression ++ writeConstruct node body "End SyncLock"

end DualSyntax.VisualBasic
