import DualSyntax.Lowering.Declarators

/-!
# From raw trees to trees of nodes

Every match becomes a node as its shape says.  The work goes down the raw tree, so its height
bounds the depth of the recursion.
-/

namespace DualSyntax.Lowering

variable {δ : Type} [BEq δ]

mutual

def readPart (g : Grammar δ) (recur : Recur δ) (owner : NodeId) (raw : RawTree δ)
    (c : Cursor δ) : Part δ → Lower (Cursor δ)
  | .keep k t => do
    let (tk, c) ← c.token k
    Lower.setToken owner t tk
    return c
  | .keepMaybe k t => do
    let (found, c) := c.eat k
    if let some tk := found then Lower.setToken owner t tk
    return c
  | .keepAny t => do
    let (tk, c) ← c.anyToken
    Lower.setToken owner t tk
    return c
  | .close k t => do
    let (tk, c) ← c.token k
    Lower.attachTrailing owner tk.leading
    Lower.setToken owner t tk
    return c
  | .drop k => return (← c.token k).2
  | .dropMaybe k => return (c.eat k).2
  | .dropAny => return (← c.anyToken).2
  | .needless k => do
    let (found, c) := c.eat k
    if let some tk := found then Lower.report tk.span .redundantSemicolon
    return c
  | .node t => do
    let (n, c) ← c.node
    Lower.set owner t (← recur n)
    return c
  | .nodeMaybe t => do
    let (found, c) := c.eatNode
    if let some n := found then Lower.set owner t (← recur n)
    return c
  | .formMaybe d t => do
    let (found, c) := c.eatForm d
    if let some n := found then Lower.set owner t (← recur n)
    return c
  | .nodes t => do
    let (found, c) := c.takeNodes none
    for n in found do Lower.push owner t (← recur n)
    return c
  | .forms d t => do
    let (found, c) := c.takeNodes (some d)
    for n in found do Lower.push owner t (← recur n)
    return c
  | .everything t => do
    for n in raw.children do Lower.push owner t (← child recur n)
    return { c with rest := [] }
  | .elements t => do
    pushAll owner t (← elements g recur raw)
    return { c with rest := [] }
  | .list t => do
    let (n, c) ← c.node
    pushAll owner t (← elements g recur n)
    return c
  | .body t => do
    let (n, c) ← c.node
    if isEmptyStatement g n then Lower.report (← spanOf n) .emptyStatement
    Lower.set owner t (← recur n)
    return c
  | .resultType t => do
    let (n, c) ← c.node
    if !isVoid n then Lower.set owner t (← recur n)
    return c
  | .objectDefault k t => do
    if (← Lower.inspect (·.child? owner t)).isNone then
      if let some tk := raw.childTokens.find? (·.kind == k) then
        Lower.set owner t (← Lower.allocate (.primitiveType .object) tk.span)
    return c
  | .given k kept parts => do
    match c.eat k with
    | (some tk, c) =>
      if let some t := kept then Lower.setToken owner t tk
      readParts g recur owner raw c parts
    | (none, c) => return c
  | .within d parts => do
    let (found, c) := c.eatForm d
    if let some n := found then
      let _ ← readParts g recur owner n (cursor g n) parts
    return c
  | .withinAll d parts => do
    let (found, c) := c.takeNodes (some d)
    for n in found do
      let _ ← readParts g recur owner n (cursor g n) parts
    return c
  | .modifiers => do
    let (n, c) ← c.node
    let _ ← addModifiers (fun _ => false) owner n
    return c
  | .ownModifiers => do
    let _ ← addModifiers (fun _ => false) owner raw
    return c
  | .modifierMaybe k => do
    let (found, c) := c.eat k
    if let some tk := found then Lower.push owner .modifiers (← Lower.modifier tk)
    return c
  | .propertyModifiers => do
    let (n, c) ← c.node
    let _ ← addModifiers saysAccessors owner n
    return c
  | .impliedAccessors k => do
    let words := (raw.children.head?.map (·.childTokens.map (·.kind))).getD []
    if let some tk := raw.childTokens.find? (·.kind == k) then
      if !words.contains .kwWriteOnly then
        Lower.set owner .getter (← Lower.allocate (.accessor .get) tk.span)
      if !words.contains .kwReadonly then
        Lower.set owner .setter (← Lower.allocate (.accessor .set) tk.span)
    return c
  | .accessors d => do
    let (found, c) := c.takeNodes (some d)
    for n in found do setAccessor owner (← recur n)
    return c
  | .typeMembers name => do
    let (found, c) := c.takeNodes none
    for n in found do addMember recur owner (raw.children.find? (·.isForm name)) n
    return c
  | .headerItems declaration t => do
    let (found, c) := c.eatNode
    if let some n := found then
      if n.isForm declaration then Lower.push owner t (← recur n)
      else pushAll owner t (← expressionStatements g recur n)
    return c
  | .declarators suffix asType asNew => do
    let (n, c) ← c.node
    addDeclarators g recur ⟨suffix, asType, asNew⟩ owner n
    return c
  | .commentsAfter => do
    Lower.attachTrailing owner (raw.triviaAfter (← read).stream)
    return c

def readParts (g : Grammar δ) (recur : Recur δ) (owner : NodeId) (raw : RawTree δ)
    (c : Cursor δ) : List (Part δ) → Lower (Cursor δ)
  | [] => return c
  | p :: ps => do
    let c ← readPart g recur owner raw c p
    readParts g recur owner raw c ps

end

def build (g : Grammar δ) (recur : Recur δ) (raw : RawTree δ) (c : Cursor δ) (kind : NodeKind)
    (parts : List (Part δ)) : Lower NodeId := do
  let n ← Lower.allocate kind (← spanOf raw)
  let _ ← readParts g recur n raw c parts
  return n

/-- Makes the nodes of the operands that a node is made after. -/
def readOperands (recur : Recur δ) (c : Cursor δ) :
    List (List TokenKind × Title) → Lower (List (Title × NodeId) × Cursor δ)
  | [] => return ([], c)
  | (tokens, t) :: rest => do
    let c ← tokens.foldlM (fun c k => do return (← c.token k).2) c
    let (raw, c) ← c.node
    let n ← recur raw
    let (others, c) ← readOperands recur c rest
    return ((t, n) :: others, c)

/-- A node over a match, made after its first operands. -/
def join (g : Grammar δ) (recur : Recur δ) (raw : RawTree δ) (kind : NodeKind)
    (operands : List (List TokenKind × Title)) (parts : List (Part δ)) : Lower NodeId := do
  let (made, c) ← readOperands recur (cursor g raw) operands
  let n ← Lower.allocate kind (← spanOf raw)
  for (t, operand) in made do Lower.set n t operand
  let _ ← readParts g recur n raw c parts
  return n

def binaryNode (operator? : TokenKind → Option BinaryOperator) (left : NodeId) (tk : Token)
    (right : NodeId) (span : Span) : Lower NodeId := do
  match operator? tk.kind with
  | none => throw (.unconvertible "binary operator" tk.text)
  | some op =>
    let n ← Lower.allocate (.binaryOperatorExpression op) span
    Lower.set n .left left
    Lower.setToken n .operatorToken tk
    Lower.set n .right right
    return n

def operatorToken (g : Grammar δ) : RawTree δ → Lower Token
  | .leaf t => return t
  | raw =>
    match raw.childTokens.head? with
    | some t => return t
    | none => throw (.unexpectedShape (raw.formName g) "operator token")

def chainLeft (g : Grammar δ) (recur : Recur δ) (operator? : TokenKind → Option BinaryOperator) :
    List (RawTree δ × RawTree δ) → NodeId → Span → Lower NodeId
  | [], left, _ => return left
  | (separator, operand) :: rest, left, span => do
    let right ← child recur operand
    let span := span.cover (← spanOf operand)
    let n ← binaryNode operator? left (← operatorToken g separator) right span
    chainLeft g recur operator? rest n span

/-- An operator chain grouped from the right; the pairs go from the last operator to the first. -/
def chainRight (g : Grammar δ) (recur : Recur δ) (operator? : TokenKind → Option BinaryOperator) :
    List (RawTree δ × RawTree δ) → NodeId → Span → Lower NodeId
  | [], right, _ => return right
  | (separator, operand) :: rest, right, span => do
    let left ← child recur operand
    let span := span.cover (← spanOf operand)
    let n ← binaryNode operator? left (← operatorToken g separator) right span
    chainRight g recur operator? rest n span

def chain (g : Grammar δ) (recur : Recur δ) (operator? : TokenKind → Option BinaryOperator)
    (rightward : Bool) (raw : RawTree δ) : Lower NodeId := do
  let (operands, separators) := raw.listItems g
  let missing : LowerError := .unexpectedShape "binary operator chain" "an operand"
  if rightward then
    match operands.getLast? with
    | none => throw missing
    | some last =>
      let n ← child recur last
      chainRight g recur operator? (separators.zip operands.dropLast).reverse n (← spanOf last)
  else
    match operands with
    | [] => throw missing
    | first :: rest =>
      let n ← child recur first
      chainLeft g recur operator? (separators.zip rest) n (← spanOf first)

def qualify (recur : Recur δ) : List (RawTree δ) → NodeId → Span → Lower NodeId
  | [], type, _ => return type
  | raw :: rest, target, span => do
    let name ← child recur raw
    let span := span.cover (← spanOf raw)
    let n ← Lower.allocate .memberType span
    Lower.set n .target target
    Lower.set n .identifier name
    qualify recur rest n span

def qualifiedType (g : Grammar δ) (recur : Recur δ) (raw : RawTree δ) : Lower NodeId := do
  match (raw.listItems g).1 with
  | [] => throw (.unexpectedShape (raw.formName g) "type name")
  | first :: rest =>
    let name ← child recur first
    let span ← spanOf first
    let n ← Lower.allocate .simpleType span
    Lower.set n .identifier name
    qualify recur rest n span

def wrapType (g : Grammar δ) : List (RawTree δ) → NodeId → Span → Lower NodeId
  | [], type, _ => return type
  | raw :: rest, type, span => do
    let span := span.cover (← spanOf raw)
    match raw with
    | .leaf _ =>
      let n ← Lower.allocate .pointerType span
      Lower.set n .type type
      wrapType g rest n span
    | rank => wrapType g rest (← arrayOf g type rank span) span

/-- Array types around an element type, one for each rank. -/
def wrapRanks (g : Grammar δ) : List (RawTree δ) → NodeId → Lower NodeId
  | [], type => return type
  | rank :: rest, type => do
    wrapRanks g rest (← arrayOf g type rank (← spanOf rank))

def applySuffix (g : Grammar δ) (recur : Recur δ) (target : NodeId) (raw : RawTree δ)
    (span : Span) : Lower NodeId := do
  let (tk, c) ← (cursor g raw).anyToken
  let on (kind : NodeKind) (title : Title) : Lower NodeId := do
    let n ← Lower.allocate kind span
    Lower.set n title target
    return n
  let read (n : NodeId) (parts : List (Part δ)) : Lower NodeId := do
    let _ ← readParts g recur n raw c parts
    return n
  match tk.kind with
  | .dot | .questionDot => do
    let n ← on (.memberReferenceExpression (tk.kind == .questionDot)) .target
    Lower.setToken n .dot tk
    read n [.node .identifier]
  | .lParen => do
    let n ← on .invocationExpression .target
    Lower.setToken n .leftParenthesis tk
    read n [.list .arguments, .keep .rParen .rightParenthesis]
  | .lBracket => do
    let n ← on .indexerExpression .target
    Lower.setToken n .leftBracket tk
    read n [.list .arguments, .keep .rBracket .rightBracket]
  | .plusPlus => do
    let n ← on (.unaryOperatorExpression .postIncrement) .expression
    Lower.setToken n .operatorToken tk
    return n
  | .minusMinus => do
    let n ← on (.unaryOperatorExpression .postDecrement) .expression
    Lower.setToken n .operatorToken tk
    return n
  | _ => throw (.unexpectedShape (raw.formName g) "postfix operator")

/-- Applies suffixes from the inside out. -/
def applySuffixes (g : Grammar δ) (recur : Recur δ) :
    List (RawTree δ) → NodeId → Span → Lower NodeId
  | [], n, _ => return n
  | raw :: rest, n, span => do
    let span := span.cover (← spanOf raw)
    applySuffixes g recur rest (← applySuffix g recur n raw span) span

/-- Applies comparisons and type tests from the inside out. -/
def applyComparisons (g : Grammar δ) (recur : Recur δ)
    (operator? : TokenKind → Option BinaryOperator) :
    List (RawTree δ) → NodeId → Span → Lower NodeId
  | [], n, _ => return n
  | raw :: rest, left, span => do
    let span := span.cover (← spanOf raw)
    let (tk, c) ← (cursor g raw).anyToken
    let operand ← recur (← c.node).1
    let typeTest (kind : NodeKind) : Lower NodeId := do
      let n ← Lower.allocate kind span
      Lower.set n .expression left
      Lower.setToken n .keyword tk
      Lower.set n .type operand
      return n
    let n ← match tk.kind with
      | .kwIs => typeTest .typeTestExpression
      | .kwAs => typeTest .asExpression
      | k =>
        if (operator? k).isNone then
          throw (.unexpectedShape (raw.formName g) "relational operator")
        else binaryNode operator? left tk operand span
    applyComparisons g recur operator? rest n span

/-- An array creation with sizes.  Where the meaning of the sizes depends on them, the node is made
after them. -/
def sizedArray (g : Grammar δ) (recur : Recur δ) (rank : δ) (bounds : Option ArrayBounds)
    (raw : RawTree δ) : Lower NodeId := do
  let (kw, c) ← (cursor g raw).token .kwNew
  let make (bounds : ArrayBounds) : Lower NodeId := do
    let n ← Lower.allocate (.arrayCreateExpression bounds) (← spanOf raw)
    Lower.setToken n .keyword kw
    return n
  let early ← bounds.mapM make
  let (element, c) ← c.node
  let type ← recur element
  let (_, c) ← c.anyToken
  let (sizes, c) ← c.node
  let arguments ← elements g recur sizes
  let (_, c) ← c.anyToken
  let n ← match early with
    | some n => pure n
    | none => make (if arguments.isEmpty then .length else .upperBound)
  pushAll n .arguments arguments
  let (ranks, c) := c.takeNodes (some rank)
  Lower.set n .type (← wrapRanks g ranks type)
  if let (some init, _) := c.eatNode then Lower.set n .initializer (← recur init)
  return n

/-- An array creation whose initializer gives the size: the outermost array type is spelled by the
creation itself and must have one dimension. -/
def listedArray (g : Grammar δ) (recur : Recur δ) (raw : RawTree δ) : Lower NodeId := do
  let n ← Lower.allocate (.arrayCreateExpression .length) (← spanOf raw)
  let (kw, c) ← (cursor g raw).token .kwNew
  Lower.setToken n .keyword kw
  let (typeRaw, c) ← c.node
  let type ← recur typeRaw
  let element ← Lower.inspect fun f =>
    if f.kind type == .arrayType 1 then f.child? type .type else none
  match element with
  | none => throw (.unexpectedShape (raw.formName g) "array type of rank 1")
  | some element =>
    Lower.detach element
    Lower.set n .type element
    Lower.set n .initializer (← recur (← c.node).1)
    return n

/-- The `ElseIf` parts of a block `If`, from the last to the first, around what stands in the
`Else` part. -/
def elseIfs (g : Grammar δ) (recur : Recur δ) :
    List (RawTree δ) → Option NodeId → Lower (Option NodeId)
  | [], tail => return tail
  | part :: rest, tail => do
    let n ← build g recur part (cursor g part) .ifElseStatement
      [.keep .kwElseIf .keyword, .node .condition, .dropMaybe .kwThen, .node .trueStatement]
    if let some tail := tail then Lower.set n .falseStatement tail
    elseIfs g recur rest (some n)

def ifBlock (g : Grammar δ) (recur : Recur δ) (elseIf elsePart : δ) (raw : RawTree δ) :
    Lower NodeId := do
  let n ← Lower.allocate .ifElseStatement (← spanOf raw)
  let c ← readParts g recur n raw (cursor g raw)
    [.keep .kwIf .keyword, .node .condition, .dropMaybe .kwThen, .node .trueStatement]
  let (parts, c) := c.takeNodes (some elseIf)
  let (last, c) := c.eatForm elsePart
  let tail ← match last with
    | some part => do
      let (_, c) ← (cursor g part).token .kwElse
      pure (some (← recur (← c.node).1))
    | none => pure none
  if let some tail ← elseIfs g recur parts.reverse tail then Lower.set n .falseStatement tail
  let _ ← readParts g recur n raw c [.keep .kwEnd .endKeyword]
  return n

def loopCondition (c : Cursor δ) : Lower (Option (Bool × RawTree δ) × Cursor δ) := do
  match c.eatAny [.kwWhile, .kwUntil] with
  | (some tk, c) =>
    let (n, c) ← c.node
    return (some (tk.kind == .kwUntil, n), c)
  | (none, c) => return (none, c)

/-- A `Do` loop, which has at most one condition. -/
def doLoop (g : Grammar δ) (recur : Recur δ) (raw : RawTree δ) : Lower NodeId := do
  let (kw, c) ← (cursor g raw).token .kwDo
  let (before, c) ← loopCondition c
  let (body, c) ← c.node
  let (_, c) ← c.token .kwLoop
  let (behind, _) ← loopCondition c
  let make (kind : NodeKind) (condition : Option (RawTree δ)) : Lower NodeId := do
    let n ← Lower.allocate kind (← spanOf raw)
    Lower.setToken n .keyword kw
    if let some condition := condition then Lower.set n .condition (← recur condition)
    Lower.set n .embeddedStatement (← recur body)
    return n
  match before, behind with
  | some _, some _ => throw (.unexpectedShape (raw.formName g) "a single loop condition")
  | some (negated, condition), none => make (.doLoopStatement .pre negated) (some condition)
  | none, some (negated, condition) => make (.doLoopStatement .post negated) (some condition)
  | none, none => make (.doLoopStatement .none false) none

/-- The label of a case: a range or a comparison as it is, a value as a plain label. -/
def caseLabel (recur : Recur δ) (clause : RawTree δ) : Lower NodeId := do
  let value ← child recur clause
  match ← Lower.inspect (·.kind value) with
  | .caseRange | .caseComparison _ => return value
  | _ =>
    let n ← Lower.allocate .caseLabel (← spanOf clause)
    Lower.set n .expression value
    return n

def caseBlock (g : Grammar δ) (recur : Recur δ) (raw : RawTree δ) : Lower NodeId := do
  let n ← Lower.allocate .switchSection (← spanOf raw)
  let (kw, c) ← (cursor g raw).token .kwCase
  let c ← match c.eat .kwElse with
    | (some _, c) => do
      let label ← Lower.allocate .caseLabel kw.span
      Lower.setToken label .keyword kw
      Lower.push n .caseLabels label
      pure c
    | (none, c) => do
      let (values, c) ← c.node
      for clause in (values.listItems g).1 do Lower.push n .caseLabels (← caseLabel recur clause)
      pure c
  for s in (← c.node).1.children do Lower.push n .statements (← child recur s)
  return n

def assignmentStatement (g : Grammar δ) (recur : Recur δ)
    (operator? : TokenKind → Option AssignmentOperator) (raw : RawTree δ) : Lower NodeId := do
  let span ← spanOf raw
  let statement ← Lower.allocate .expressionStatement span
  let (target, c) ← (cursor g raw).node
  let left ← recur target
  let (tk, c) ← c.anyToken
  match operator? tk.kind with
  | none => throw (.unexpectedShape (raw.formName g) "assignment operator")
  | some op =>
    let n ← Lower.allocate (.assignmentExpression op) span
    Lower.set n .left left
    Lower.setToken n .operatorToken tk
    Lower.set n .value (← recur (← c.node).1)
    Lower.set statement .expression n
    return statement

/-- A parameter whose name may have an array rank, which then belongs to its type. -/
def rankedParameter (g : Grammar δ) (recur : Recur δ) (passing : ParameterModifier)
    (rank clause : δ) (raw : RawTree δ) : Lower NodeId := do
  let n ← Lower.allocate (.parameterDeclaration passing) (← spanOf raw)
  let c := cursor g raw
  let c := { c with rest := c.rest.dropWhile (·.token?.isSome) }
  let (name, c) ← c.node
  Lower.set n .identifier (← recur name)
  let (rankRaw, c) := c.eatForm rank
  let (clauseRaw, c) := c.eatForm clause
  if let some clauseRaw := clauseRaw then
    let type ← clauseType g recur clauseRaw
    match rankRaw with
    | some r => Lower.set n .type (← arrayOf g type r (← spanOf r))
    | none => Lower.set n .type type
  let _ ← readParts g recur n raw c [.given .eq (some .assign) [.node .defaultExpression]]
  return n

def shaped (g : Grammar δ) (recur : Recur δ) (raw : RawTree δ) : Shape δ → Lower NodeId
  | .forward =>
    match raw.children with
    | [only] => child recur only
    | _ => throw (.noLowering (raw.formName g))
  | .identifier => do Lower.identifier (← (cursor g raw).anyToken).1
  | .literal =>
    match raw.childTokens.head? with
    | some t => Lower.literal t
    | none => throw (.unexpectedShape (raw.formName g) "a token")
  | .knownType =>
    match raw.childTokens.head? with
    | none => throw (.unexpectedShape (raw.formName g) "type keyword")
    | some t =>
      match KnownType.ofToken? t.kind with
      | some k => Lower.allocate (.primitiveType k) t.span
      | none => throw (.unconvertible "primitive type" t.text)
  | .build kind parts => build g recur raw (cursor g raw) kind parts
  | .join kind operands parts => join g recur raw kind operands parts
  | .extend parts => do
    let (first, c) ← (cursor g raw).node
    let n ← recur first
    let _ ← readParts g recur n raw c parts
    return n
  | .chain operator? rightward => chain g recur operator? rightward raw
  | .qualifiedType => qualifiedType g recur raw
  | .rankedType => do
    let (first, c) ← (cursor g raw).node
    let n ← recur first
    wrapType g c.rest n (← spanOf first)
  | .suffixed => do
    let (first, c) ← (cursor g raw).node
    let n ← recur first
    applySuffixes g recur c.rest n (← spanOf first)
  | .comparisons operator? => do
    let (first, c) ← (cursor g raw).node
    let n ← recur first
    applyComparisons g recur operator? c.rest n (← spanOf first)
  | .sizedArray rank bounds => sizedArray g recur rank bounds raw
  | .listedArray => listedArray g recur raw
  | .ifBlock elseIf elsePart => ifBlock g recur elseIf elsePart raw
  | .doLoop => doLoop g recur raw
  | .caseBlock => caseBlock g recur raw
  | .assignment operator? => assignmentStatement g recur operator? raw
  | .rankedParameter passing rank clause => rankedParameter g recur passing rank clause raw
  | .refused expected => throw (.unexpectedShape (raw.formName g) expected)

/-- The node of the whole text: that of the definition.  The comments before the end of a file
belong to its compilation unit. -/
def wholeText (recur : Recur δ) (raw : RawTree δ) : Lower NodeId := do
  match raw.children.find? (·.token?.isNone) with
  | none => throw (.unexpectedShape "ROOT" "a definition node")
  | some inner =>
    let n ← recur inner
    if ← Lower.inspect (·.kind n == .compilationUnit) then
      if let some last := raw.childTokens.getLast? then Lower.attachTrailing n last.leading
    return n

/-- The node of a raw tree whose height is at most the first argument. -/
def lowerUpTo (g : Grammar δ) : Nat → RawTree δ → Lower NodeId
  | 0, _ => throw .tooDeep
  | fuel + 1, raw =>
    match raw with
    | .leaf t => Lower.token t
    | .node none _ _ _ => wholeText (lowerUpTo g fuel) raw
    | .node (some d) _ _ _ => do
      let n ← shaped g (lowerUpTo g fuel) raw (g.shape d (raw.childTokens.map (·.kind)))
      if g.keepsTrivia d then Lower.attachLeading n raw
      return n

end DualSyntax.Lowering

namespace DualSyntax

/-- The tree of nodes of a raw tree, with the diagnostics that came up. -/
def RawTree.lower {δ : Type} [BEq δ] (g : Grammar δ) (source : Source) (raw : RawTree δ) :
    Except LowerError (NodeId × Draft) :=
  Lowering.lowerUpTo g raw.height raw source {}

end DualSyntax
