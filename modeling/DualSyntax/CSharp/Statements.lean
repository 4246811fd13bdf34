import DualSyntax.CSharp.Expressions

/-!
# Writing C#: statements

Loops that count are written as `for` loops, an `Exit` as a `break` or `return` where that leaves
the same construct, and a section of a `switch` ends with a `break` if nothing else ends it.
-/

namespace DualSyntax.CSharp

open Writing

/-- An opening brace and the start of an indented line. -/
def openBrace (place : BracePlace) : Written :=
  (match place with
    | .endOfLine => space
    | .nextLine => newLine) ++ put "\x7b" ++ newLine ++ step .indent

def closeBrace : Written := step .unindent ++ put "\x7d"

/-- The end of a statement, unless it stands in a header. -/
def endStatement : Written := do
  if (← read).inHeader then nothing else put ";"

def isBlock (f : Forest) (n : NodeId) : Bool := f.kind n matches .blockStatement

/-- What stands between a statement and the `else`, `catch` or `while` that goes on with it. -/
def continuation (previous : NodeId) : Written := do
  let page ← read
  if isBlock page.forest previous && page.style.statementBrace == .endOfLine then space
  else newLine

variable (node : NodeId → Written)

def writeBlock (n : NodeId) (place : BracePlace) : Written := do
  marked n <|
    openBrace place ++ onLines node ((← forest).children n .statements) ++ trailingTrivia n ++
      closeBrace

def writeStatementBlock (n : NodeId) : Written := do
  writeBlock node n (← read).style.statementBrace

/-- The body of a statement: a block, or one statement on an indented line. -/
def writeEmbedded (n : NodeId) : Written := do
  if isBlock (← forest) n then node n
  else newLine ++ indented (leadingTrivia n ++ node n)

def writeHead (word : String) (head : Written) : Written :=
  put word ++ put " (" ++ head ++ put ")"

def writeIf (n : NodeId) : Written := do
  let f ← forest
  let condition ← required n .condition
  let yes ← required n .trueStatement
  writeHead "if" (node condition) ++ writeEmbedded node yes ++
    match f.child? n .falseStatement with
    | none => nothing
    | some no =>
      continuation yes ++ put "else" ++
        if f.kind no matches .ifElseStatement then space ++ node no else writeEmbedded node no

def writeLoopCondition (condition : Option NodeId) (isUntil : Bool) : Written :=
  match condition with
  | none => put "true"
  | some c => if isUntil then put "!" ++ writeOperand node c primaryLevel else node c

/-- A loop that tests before or after its body; one without a test goes on for ever. -/
def writeDoLoop (n : NodeId) (test : LoopTest) (isUntil : Bool) : Written := do
  let body ← required n .embeddedStatement
  let condition := writeLoopCondition node ((← forest).child? n .condition) isUntil
  match test with
  | .post =>
    put "do" ++ writeEmbedded node body ++ continuation body ++ put "while" ++ put " (" ++
      condition ++ put ");"
  | .pre | .none => writeHead "while" condition ++ writeEmbedded node body

def writeFor (n : NodeId) : Written := do
  let f ← forest
  let iterators := f.children n .iterators
  let body ← required n .embeddedStatement
  writeHead "for" (header <|
      commaSeparatedAt node n .initializers ++ put ";" ++ ifChild node n .condition space ++
        put ";" ++ onlyIf (!iterators.isEmpty) (space ++ commaSeparated node iterators)) ++
    writeEmbedded node body

/-- A loop from a start to a limit.  A step with a minus sign counts down. -/
def writeForNext (n : NodeId) : Written := do
  let f ← forest
  let name ← required n .identifier
  let start ← required n .initializer
  let limit ← required n .limit
  let body ← required n .embeddedStatement
  let (compare, step) ← match f.child? n .step with
    | none => pure (" <= ", put "++")
    | some step =>
      match f.kind step with
      | .unaryOperatorExpression .minus => do
        let amount ← required step .expression
        pure (" >= ", put " -= " ++ writeOperand node amount assignmentLevel)
      | _ => pure (" <= ", put " += " ++ writeOperand node step assignmentLevel)
  let type := match f.child? n .type with
    | some type => node type ++ space
    | none => nothing
  writeHead "for" (type ++ node name ++ put " = " ++ node start ++ put "; " ++ node name ++
      put compare ++ writeOperand node limit (relationalLevel + 1) ++ put "; " ++ node name ++
      step) ++
    writeEmbedded node body

def writeForeach (n : NodeId) : Written := do
  let name ← required n .identifier
  let collection ← required n .expression
  let body ← required n .embeddedStatement
  writeHead "foreach" (childOr node n .type "var" ++ space ++ node name ++ put " " ++ put "in" ++
      space ++ node collection) ++
    writeEmbedded node body

def writeWhile (n : NodeId) : Written := do
  let condition ← required n .condition
  let body ← required n .embeddedStatement
  writeHead "while" (node condition) ++ writeEmbedded node body

def writeKeywordStatement (n : NodeId) (word : String) : Written :=
  put word ++ ifChild node n .expression space ++ endStatement

/-- The innermost loop or `switch` around a node: what a `break` there leaves. -/
def jumpTarget? (f : Forest) (n : NodeId) : Option NodeId :=
  (f.ancestors n).find? fun a => (f.kind a).isLoop || f.kind a matches .switchStatement

/-- The word that leaves a construct from a place, if there is one.  The innermost loop or `switch`
there is of the kind `target`. -/
def exitWord? (exit : ExitKind) (target : Option NodeKind) : Option String :=
  match exit, target with
  | .subBody, _ | .propertyBody, _ => some "return"
  | .selectBlock, some .switchStatement
  | .doLoop, some (.doLoopStatement _ _)
  | .whileLoop, some .whileStatement
  | .forLoop, some .forNextStatement
  | .forLoop, some .foreachStatement
  | .forLoop, some .forStatement => some "break"
  | _, _ => none

def writeExit (n : NodeId) (exit : ExitKind) : Written := do
  let f ← forest
  match exitWord? exit ((jumpTarget? f n).map f.kind) with
  | some word => put word ++ endStatement
  | none => unsupported n

/-- The clauses of a `try`, each after the block before it, and at last the `finally` block. -/
def writeClauses (f : Forest) (final : Option NodeId) (previous : NodeId) :
    List NodeId → Written
  | [] =>
    match final with
    | none => nothing
    | some block => continuation previous ++ put "finally" ++ writeStatementBlock node block
  | clause :: rest =>
    continuation previous ++ node clause ++
      writeClauses f final ((f.child? clause .body).getD clause) rest

def writeTry (n : NodeId) : Written := do
  let f ← forest
  let block ← required n .tryBlock
  put "try" ++ writeStatementBlock node block ++
    writeClauses node f (f.child? n .finallyBlock) block (f.children n .catchClauses)

def writeCatch (n : NodeId) : Written := do
  let body ← required n .body
  put "catch" ++
    (match (← forest).child? n .type with
      | none => nothing
      | some type => put " (" ++ node type ++ ifChild node n .identifier space ++ put ")") ++
    writeStatementBlock node body

def writeSwitch (n : NodeId) : Written := do
  let page ← read
  let expression ← required n .expression
  writeHead "switch" (node expression) ++ openBrace page.style.statementBrace ++
    inOrder ((page.forest.children n .switchSections).map fun s => leadingTrivia s ++ node s) ++
    trailingTrivia n ++ closeBrace

/-- Whether control never runs past a statement because it jumps. -/
def isJump : NodeKind → Bool
  | .breakStatement | .continueStatement | .returnStatement | .throwStatement
  | .exitStatement _ => true
  | _ => false

/-- A section of a `switch`: its labels, then its statements; if the last of them is no jump, a
`break` follows. -/
def writeSection (n : NodeId) : Written := do
  let f ← forest
  let statements := f.children n .statements
  let jumps := statements.getLast?.any fun s => isJump (f.kind s)
  inOrder ((f.children n .caseLabels).map fun l => node l ++ newLine) ++
    indented (onLines node statements ++ onlyIf (!jumps) (put "break" ++ put ";" ++ newLine))

def writeCaseLabel (n : NodeId) : Written := do
  (match (← forest).child? n .expression with
    | some e => put "case" ++ space ++ node e
    | none => put "default") ++ put ":"

def writeHeaderStatement (n : NodeId) (word : String) (t : Title) : Written := do
  let head ← required n t
  let body ← required n .embeddedStatement
  writeHead word (header (node head)) ++ writeEmbedded node body

def writeFixed (n : NodeId) : Written := do
  let type ← required n .type
  let body ← required n .embeddedStatement
  writeHead "fixed" (node type ++ space ++ commaSeparatedAt node n .declarators) ++
    writeEmbedded node body

def writeExpressionStatement (n : NodeId) : Written := do
  node (← required n .expression) ++ endStatement

end DualSyntax.CSharp
