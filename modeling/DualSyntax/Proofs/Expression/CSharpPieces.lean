import DualSyntax.CSharp.Expressions
import DualSyntax.CSharp.Shapes
import DualSyntax.Proofs.Forest.Trees
import DualSyntax.Proofs.Lexing.Pieces
import DualSyntax.Proofs.Writing.Printed

/-!
# Operator expressions and their pieces

Operator expressions in both languages, and the pieces that they are printed in.
-/

namespace DualSyntax

/-!
## Operator expressions

The expressions that operators, calls and member accesses build from names and literals, apart from
any forest and from any language.
-/

inductive Expression where
  | name (word : String)
  | literal (value : LiteralValue)
  | this
  | base
  | member (nullConditional : Bool) (target : Expression) (word : String)
  /-- A call, or an access by index. -/
  | application (indexed : Bool) (target : Expression) (arguments : List Expression)
  | unary (op : UnaryOperator) (operand : Expression)
  | binary (op : BinaryOperator) (left right : Expression)
  | assignment (op : AssignmentOperator) (left value : Expression)
  | conditional (condition yes no : Expression)
  /-- A test for the type of a name, or a conversion to it that may fail. -/
  | typeTest (converts : Bool) (operand : Expression) (type : String)

namespace Expression

def named (kind : NodeKind) (word : String) : Tree :=
  .node kind [(.identifier, .node (.identifier word) [])]

def applicationKind (indexed : Bool) : NodeKind :=
  if indexed then .indexerExpression else .invocationExpression

def typeTestKind (converts : Bool) : NodeKind :=
  if converts then .asExpression else .typeTestExpression

def kind : Expression → NodeKind
  | name _ => .identifierExpression
  | literal value => .primitiveExpression ⟨value, none⟩
  | this => .thisReferenceExpression
  | base => .baseReferenceExpression
  | member nullConditional _ _ => .memberReferenceExpression nullConditional
  | application indexed _ _ => applicationKind indexed
  | unary op _ => .unaryOperatorExpression op
  | binary op _ _ => .binaryOperatorExpression op
  | assignment op _ _ => .assignmentExpression op
  | conditional _ _ _ => .conditionalExpression
  | typeTest converts _ _ => typeTestKind converts

mutual

def tree : Expression → Tree
  | name word => named .identifierExpression word
  | literal value => .node (.primitiveExpression ⟨value, none⟩) []
  | this => .node .thisReferenceExpression []
  | base => .node .baseReferenceExpression []
  | member nullConditional target word =>
    .node (.memberReferenceExpression nullConditional)
      [(.target, target.tree), (.identifier, .node (.identifier word) [])]
  | application indexed target arguments =>
    .node (applicationKind indexed) ((.target, target.tree) :: (trees arguments).map (.arguments, ·))
  | unary op operand => .node (.unaryOperatorExpression op) [(.expression, operand.tree)]
  | binary op left right =>
    .node (.binaryOperatorExpression op) [(.left, left.tree), (.right, right.tree)]
  | assignment op left value =>
    .node (.assignmentExpression op) [(.left, left.tree), (.value, value.tree)]
  | conditional condition yes no =>
    .node .conditionalExpression
      [(.condition, condition.tree), (.trueExpression, yes.tree), (.falseExpression, no.tree)]
  | typeTest converts operand type =>
    .node (typeTestKind converts) [(.expression, operand.tree), (.type, named .simpleType type)]

def trees : List Expression → List Tree
  | [] => []
  | e :: es => e.tree :: trees es

end

theorem trees_eq_map (es : List Expression) : trees es = es.map tree := by
  induction es with
  | nil => rfl
  | cons e es ih => rw [trees, ih, List.map_cons]

@[simp] theorem tree_kind (e : Expression) : e.tree.kind = e.kind := by
  cases e <;> simp [tree, kind, Tree.kind, named]

mutual

/-- The number of levels of a tree of nodes for an expression. -/
def depth : Expression → Nat
  | name _ | literal _ | this | base => 2
  | member _ target _ => target.depth + 1
  | application _ target arguments => max target.depth (depthOf arguments) + 1
  | unary _ operand => operand.depth + 1
  | binary _ left right => max left.depth right.depth + 1
  | assignment _ left value => max left.depth value.depth + 1
  | conditional condition yes no => max condition.depth (max yes.depth no.depth) + 1
  | typeTest _ operand _ => operand.depth + 1

def depthOf : List Expression → Nat
  | [] => 0
  | e :: es => max e.depth (depthOf es)

end

theorem two_le_depth (e : Expression) : 2 ≤ e.depth := by
  induction e using Expression.rec (motive_2 := fun _ => True) <;>
    simp only [depth] <;> omega

theorem depth_le_depthOf {e : Expression} {es : List Expression} (h : e ∈ es) :
    e.depth ≤ depthOf es := by
  induction es with
  | nil => cases h
  | cons x xs ih =>
      rw [depthOf]
      rcases List.mem_cons.mp h with rfl | h
      · exact Nat.le_max_left _ _
      · exact Nat.le_trans (ih h) (Nat.le_max_right _ _)

theorem depthOf_le {k : Nat} {es : List Expression} (h : ∀ e ∈ es, e.depth ≤ k) :
    depthOf es ≤ k := by
  induction es with
  | nil => exact Nat.zero_le _
  | cons e es ih =>
      rw [depthOf]
      exact Nat.max_le.mpr ⟨h e List.mem_cons_self, ih fun x hx => h x (List.mem_cons_of_mem _ hx)⟩

end Expression

/-!
## Operator expressions in C#

The expressions that C# has words for, and the pieces of text in which they are printed.
-/

def Language.nameSign (l : Language) (word : String) : Sign :=
  let found := Lexing.wordLexeme l word.toList
  if l.isReserved word then ⟨(l.escaped word).toList, .identifier, none⟩
  else ⟨word.toList, found.kind, found.value⟩

def Piece.commaSeparated : List (List Piece) → List Piece
  | [] => []
  | [ps] => ps
  | ps :: rest => ps ++ [.sign ⟨[','], .comma, none⟩, .blank] ++ commaSeparated rest

theorem Piece.commaSeparated_cons_cons (ps qs : List Piece) (rest : List (List Piece)) :
    commaSeparated (ps :: qs :: rest) =
      ps ++ .sign ⟨[','], .comma, none⟩ :: .blank :: commaSeparated (qs :: rest) := by
  rw [commaSeparated, List.append_assoc]
  · rfl
  · intro h
    cases h

namespace CSharp

/-! ### Expressions -/

def hasBinary (op : BinaryOperator) : Bool :=
  !([.concat, .integerDivide, .power, .referenceEquality, .referenceInequality].contains op)

def hasAssignment (op : AssignmentOperator) : Bool :=
  !([.concat, .integerDivide, .power].contains op)

/-- The literal values without a spelling that C# prints as what they are. -/
def hasLiteral : LiteralValue → Bool
  | .null | .boolean _ | .string _ | .char _ => true
  | .integer n suffix =>
    n < Nat.pow 2 64 && [.none, .uinteger, .long, .ulong].contains suffix
  | .real _ _ => false

/-- The operator expressions of C#. -/
inductive Spellable : Expression → Prop
  | name {word : String} (h : Lexing.IsWord word.toList) : Spellable (.name word)
  | literal {value : LiteralValue} (h : hasLiteral value = true) : Spellable (.literal value)
  | this : Spellable .this
  | base : Spellable .base
  | member {nullConditional : Bool} {target : Expression} {word : String}
      (ht : Spellable target) (h : Lexing.IsWord word.toList) :
      Spellable (.member nullConditional target word)
  | application {indexed : Bool} {target : Expression} {arguments : List Expression}
      (ht : Spellable target) (ha : ∀ a ∈ arguments, Spellable a) :
      Spellable (.application indexed target arguments)
  | unary {op : UnaryOperator} {operand : Expression} (h : Spellable operand) :
      Spellable (.unary op operand)
  | binary {op : BinaryOperator} {left right : Expression} (hop : hasBinary op = true)
      (hl : Spellable left) (hr : Spellable right) : Spellable (.binary op left right)
  | assignment {op : AssignmentOperator} {left value : Expression}
      (hop : hasAssignment op = true) (hl : Spellable left) (hv : Spellable value) :
      Spellable (.assignment op left value)
  | conditional {condition yes no : Expression} (hc : Spellable condition) (hy : Spellable yes)
      (hn : Spellable no) : Spellable (.conditional condition yes no)
  | typeTest {converts : Bool} {operand : Expression} {type : String} (h : Spellable operand)
      (ht : Lexing.IsWord type.toList) : Spellable (.typeTest converts operand type)

def levelOf (e : Expression) : Nat := expressionLevel e.kind

@[simp] theorem levelOf_application (indexed : Bool) (target : Expression)
    (arguments : List Expression) :
    levelOf (.application indexed target arguments) = primaryLevel := by
  cases indexed <;> rfl

@[simp] theorem levelOf_unary (op : UnaryOperator) (operand : Expression) :
    levelOf (.unary op operand) = if op.isSuffix then primaryLevel else unaryLevel := rfl

@[simp] theorem levelOf_binary (op : BinaryOperator) (left right : Expression) :
    levelOf (.binary op left right) = binaryLevel op := rfl

@[simp] theorem levelOf_assignment (op : AssignmentOperator) (left value : Expression) :
    levelOf (.assignment op left value) = assignmentLevel := rfl

@[simp] theorem levelOf_conditional (condition yes no : Expression) :
    levelOf (.conditional condition yes no) = conditionalLevel := rfl

@[simp] theorem levelOf_typeTest (converts : Bool) (operand : Expression) (type : String) :
    levelOf (.typeTest converts operand type) = relationalLevel := by
  cases converts <;> rfl

theorem binaryLevel_le {op : BinaryOperator} (h : hasBinary op = true) :
    coalescingLevel ≤ binaryLevel op ∧ binaryLevel op < unaryLevel := by
  cases op with
  | power => cases h
  | _ => decide

/-! ### Signs -/

def binaryKind : BinaryOperator → TokenKind
  | .add | .concat => .plus
  | .subtract => .minus
  | .multiply => .star
  | .divide | .integerDivide => .slash
  | .modulus => .percent
  | .shiftLeft => .ltLt
  | .shiftRight => .gtGt
  | .bitwiseAnd => .amp
  | .bitwiseOr => .pipe
  | .exclusiveOr | .power => .caret
  | .conditionalAnd => .ampAmp
  | .conditionalOr => .pipePipe
  | .equality | .referenceEquality => .eqEq
  | .inEquality | .referenceInequality => .bangEq
  | .lessThan => .lt
  | .greaterThan => .gt
  | .lessThanOrEqual => .ltEq
  | .greaterThanOrEqual => .gtEq
  | .nullCoalescing => .questionQuestion

def assignmentKind : AssignmentOperator → TokenKind
  | .assign | .power => .eq
  | .add | .concat => .plusEq
  | .subtract => .minusEq
  | .multiply => .starEq
  | .divide | .integerDivide => .slashEq
  | .modulus => .percentEq
  | .shiftLeft => .ltLtEq
  | .shiftRight => .gtGtEq
  | .bitwiseAnd => .ampEq
  | .bitwiseOr => .pipeEq
  | .exclusiveOr => .caretEq

def unaryKind : UnaryOperator → TokenKind
  | .not => .bang
  | .bitNot => .tilde
  | .minus => .minus
  | .plus => .plus
  | .increment | .postIncrement => .plusPlus
  | .decrement | .postDecrement => .minusMinus

def literalKind : LiteralValue → TokenKind
  | .null => .kwNull
  | .boolean b => if b then .kwTrue else .kwFalse
  | .integer _ _ => .integerLiteral
  | .real _ _ => .realLiteral
  | .string _ => .stringLiteral
  | .char _ => .charLiteral

def literalTokenValue : LiteralValue → Option LiteralValue
  | .null => none
  | value => some value

def literalSign (value : LiteralValue) : Sign :=
  ⟨(literalText value).toList, literalKind value, literalTokenValue value⟩

def mark (text : String) (kind : TokenKind) : Piece := .sign ⟨text.toList, kind, none⟩

/-! ### Pieces -/

def inParentheses (ps : List Piece) : List Piece :=
  [mark "(" .lParen] ++ ps ++ [mark ")" .rParen]

def guarded (least : Nat) (e : Expression) (ps : List Piece) : List Piece :=
  if levelOf e < least then inParentheses ps else ps

def operandLevels (op : BinaryOperator) : Nat × Nat :=
  if op = .nullCoalescing then (binaryLevel op + 1, binaryLevel op)
  else (binaryLevel op, binaryLevel op + 1)

/-- Whether a blank keeps the sign of an operator apart from its operand. -/
def gluesTo (op : UnaryOperator) : Expression → Bool
  | .unary inner _ => wouldGlue op inner
  | _ => false

mutual

def pieces : Expression → List Piece
  | .name word => [.sign (Language.csharp.nameSign word)]
  | .literal value => [.sign (literalSign value)]
  | .this => [mark "this" .kwThis]
  | .base => [mark "base" .kwBase]
  | .member nullConditional target word =>
    guarded primaryLevel target (pieces target) ++
      [if nullConditional then mark "?." .questionDot else mark "." .dot,
       .sign (Language.csharp.nameSign word)]
  | .application indexed target arguments =>
    guarded primaryLevel target (pieces target) ++
      [if indexed then mark "[" .lBracket else mark "(" .lParen] ++
      Piece.commaSeparated (allPieces arguments) ++
      [if indexed then mark "]" .rBracket else mark ")" .rParen]
  | .unary op operand =>
    if op.isSuffix then
      guarded primaryLevel operand (pieces operand) ++ [mark (unaryText op) (unaryKind op)]
    else
      [mark (unaryText op) (unaryKind op)] ++ (if gluesTo op operand then [.blank] else []) ++
        guarded unaryLevel operand (pieces operand)
  | .binary op left right =>
    guarded (operandLevels op).1 left (pieces left) ++
      [.blank, mark (binaryText op) (binaryKind op), .blank] ++
      guarded (operandLevels op).2 right (pieces right)
  | .assignment op left value =>
    guarded unaryLevel left (pieces left) ++
      [.blank, mark ((assignmentText? op).getD "=") (assignmentKind op), .blank] ++
      guarded assignmentLevel value (pieces value)
  | .conditional condition yes no =>
    guarded coalescingLevel condition (pieces condition) ++
      [.blank, mark "?" .question, .blank] ++ guarded assignmentLevel yes (pieces yes) ++
      [.blank, mark ":" .colon, .blank] ++ guarded assignmentLevel no (pieces no)
  | .typeTest converts operand type =>
    guarded relationalLevel operand (pieces operand) ++
      [.blank, if converts then mark "as" .kwAs else mark "is" .kwIs, .blank,
       .sign (Language.csharp.nameSign type)]

def allPieces : List Expression → List (List Piece)
  | [] => []
  | e :: es => pieces e :: allPieces es

end

theorem allPieces_eq_map (es : List Expression) : allPieces es = es.map pieces := by
  induction es with
  | nil => rfl
  | cons e es ih => rw [allPieces, ih, List.map_cons]

def operand (least : Nat) (e : Expression) : List Piece := guarded least e (pieces e)

theorem operand_of_le {least : Nat} {e : Expression} (h : least ≤ levelOf e) :
    operand least e = pieces e := by
  rw [operand, guarded, if_neg (Nat.not_lt.mpr h)]

theorem operand_of_lt {least : Nat} {e : Expression} (h : levelOf e < least) :
    operand least e = inParentheses (pieces e) := by
  rw [operand, guarded, if_pos h]

end CSharp

end DualSyntax
