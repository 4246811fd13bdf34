import DualSyntax.Node.Kind
import DualSyntax.Text.Blank

/-!
# Spelling of C#

The words and signs for operators, suffixes and literal values, and how tightly operators bind.
-/

namespace DualSyntax.CSharp

/-! ## Binding powers; a higher number binds tighter -/

def assignmentLevel : Nat := 1

def conditionalLevel : Nat := 2

def coalescingLevel : Nat := 3

def relationalLevel : Nat := 10

def additiveLevel : Nat := 12

/-- Operators in front of their operand, and casts. -/
def unaryLevel : Nat := 14

def primaryLevel : Nat := 15

/-- The level of a binary operator.  A power is written as a call. -/
def binaryLevel : BinaryOperator → Nat
  | .nullCoalescing => coalescingLevel
  | .conditionalOr => 4
  | .conditionalAnd => 5
  | .bitwiseOr => 6
  | .exclusiveOr => 7
  | .bitwiseAnd => 8
  | .equality | .inEquality | .referenceEquality | .referenceInequality => 9
  | .lessThan | .greaterThan | .lessThanOrEqual | .greaterThanOrEqual => relationalLevel
  | .shiftLeft | .shiftRight => 11
  | .add | .subtract | .concat => additiveLevel
  | .multiply | .divide | .modulus | .integerDivide => 13
  | .power => primaryLevel

def expressionLevel : NodeKind → Nat
  | .assignmentExpression _ => assignmentLevel
  | .conditionalExpression => conditionalLevel
  | .binaryOperatorExpression op => binaryLevel op
  | .unaryOperatorExpression op => if op.isSuffix then primaryLevel else unaryLevel
  | .castExpression _ => unaryLevel
  | .typeTestExpression | .asExpression => relationalLevel
  | _ => primaryLevel

/-! ## Signs -/

def binaryText : BinaryOperator → String
  | .add | .concat => "+"
  | .subtract => "-"
  | .multiply => "*"
  | .divide | .integerDivide => "/"
  | .modulus => "%"
  | .shiftLeft => "<<"
  | .shiftRight => ">>"
  | .bitwiseAnd => "&"
  | .bitwiseOr => "|"
  | .exclusiveOr => "^"
  | .conditionalAnd => "&&"
  | .conditionalOr => "||"
  | .equality | .referenceEquality => "=="
  | .inEquality | .referenceInequality => "!="
  | .lessThan => "<"
  | .greaterThan => ">"
  | .lessThanOrEqual => "<="
  | .greaterThanOrEqual => ">="
  | .nullCoalescing => "??"
  | .power => "Math.Pow"

def assignmentText? : AssignmentOperator → Option String
  | .assign => some "="
  | .add | .concat => some "+="
  | .subtract => some "-="
  | .multiply => some "*="
  | .divide | .integerDivide => some "/="
  | .modulus => some "%="
  | .shiftLeft => some "<<="
  | .shiftRight => some ">>="
  | .bitwiseAnd => some "&="
  | .bitwiseOr => some "|="
  | .exclusiveOr => some "^="
  | .power => none

def unaryText : UnaryOperator → String
  | .not => "!"
  | .bitNot => "~"
  | .minus => "-"
  | .plus => "+"
  | .increment | .postIncrement => "++"
  | .decrement | .postDecrement => "--"

/-- Whether the sign of the outer operator would run into that of the inner one. -/
def wouldGlue (outer inner : UnaryOperator) : Bool :=
  !inner.isSuffix && (unaryText inner).toList.head? == (unaryText outer).toList.head?

def suffixText : NumberSuffix → String
  | .none | .short | .ushort | .integer => ""
  | .uinteger => "u"
  | .long => "L"
  | .ulong => "UL"
  | .float => "f"
  | .double => "d"
  | .decimal => "m"

/-! ## Literals -/

/-- A control character as four hexadecimal digits. -/
def codeEscape (c : Char) : List Char :=
  let digits := Text.hexText c.toNat
  '\\' :: 'u' :: (List.replicate (4 - digits.length) '0' ++ digits)

/-- A character inside quotes, escaped where it has to be. -/
def escape (quote : Char) (c : Char) : List Char :=
  if c = '\\' then ['\\', '\\']
  else if c = '\n' then ['\\', 'n']
  else if c = '\r' then ['\\', 'r']
  else if c = '\t' then ['\\', 't']
  else if c = '\x00' then ['\\', '0']
  else if c = quote then ['\\', c]
  else if Text.isControl c then codeEscape c
  else [c]

def literalText : LiteralValue → String
  | .null => "null"
  | .boolean b => if b then "true" else "false"
  | .integer n suffix => toString n ++ suffixText suffix
  | .real x suffix => RealNotation.marked.text x ++ suffixText suffix
  | .string s => String.ofList ('"' :: (s.toList.flatMap (escape '"') ++ ['"']))
  | .char c => String.ofList ('\x27' :: (escape '\x27' c ++ ['\x27']))

end DualSyntax.CSharp
