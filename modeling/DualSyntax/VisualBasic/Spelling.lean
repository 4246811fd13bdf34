import DualSyntax.Node.Kind
import DualSyntax.Text.Blank

/-!
# Spelling of Visual Basic

The words and signs for operators, suffixes and literal values, and how tightly operators bind.
Strings have no escapes, so control characters are joined to them by their codes.
-/

namespace DualSyntax.VisualBasic

/-! ## Binding powers; a higher number binds tighter -/

def notLevel : Nat := 4

def additiveLevel : Nat := 8

def negationLevel : Nat := 12

def primaryLevel : Nat := 20

/-- The level of a binary operator.  The null-coalescing operator is written as a call. -/
def binaryLevel : BinaryOperator → Nat
  | .exclusiveOr => 1
  | .bitwiseOr | .conditionalOr => 2
  | .bitwiseAnd | .conditionalAnd => 3
  | .equality | .inEquality | .referenceEquality | .referenceInequality | .lessThan | .greaterThan
  | .lessThanOrEqual | .greaterThanOrEqual => 5
  | .shiftLeft | .shiftRight => 6
  | .concat => 7
  | .add | .subtract => additiveLevel
  | .modulus => 9
  | .integerDivide => 10
  | .multiply | .divide => 11
  | .power => 13
  | .nullCoalescing => primaryLevel

def expressionLevel : NodeKind → Nat
  | .binaryOperatorExpression op => binaryLevel op
  | .unaryOperatorExpression .not | .unaryOperatorExpression .bitNot => notLevel
  | .unaryOperatorExpression _ => negationLevel
  | .assignmentExpression _ => 0
  | _ => primaryLevel

/-! ## Words and signs -/

def binaryText : BinaryOperator → String
  | .add => "+"
  | .subtract => "-"
  | .multiply => "*"
  | .divide => "/"
  | .integerDivide => "\\"
  | .modulus => "Mod"
  | .power => "^"
  | .concat => "&"
  | .shiftLeft => "<<"
  | .shiftRight => ">>"
  | .bitwiseAnd => "And"
  | .bitwiseOr => "Or"
  | .exclusiveOr => "Xor"
  | .conditionalAnd => "AndAlso"
  | .conditionalOr => "OrElse"
  | .equality => "="
  | .inEquality => "<>"
  | .lessThan => "<"
  | .greaterThan => ">"
  | .lessThanOrEqual => "<="
  | .greaterThanOrEqual => ">="
  | .referenceEquality => "Is"
  | .referenceInequality => "IsNot"
  | .nullCoalescing => "If"

/-- The sign of an assignment operator, or the binary operator that it has to be written with. -/
def assignmentText : AssignmentOperator → Except BinaryOperator String
  | .assign => .ok "="
  | .add => .ok "+="
  | .subtract => .ok "-="
  | .multiply => .ok "*="
  | .divide => .ok "/="
  | .integerDivide => .ok "\\="
  | .power => .ok "^="
  | .concat => .ok "&="
  | .shiftLeft => .ok "<<="
  | .shiftRight => .ok ">>="
  | .modulus => .error .modulus
  | .bitwiseAnd => .error .bitwiseAnd
  | .bitwiseOr => .error .bitwiseOr
  | .exclusiveOr => .error .exclusiveOr

def suffixText : NumberSuffix → String
  | .none => ""
  | .short => "S"
  | .ushort => "US"
  | .integer => "I"
  | .uinteger => "UI"
  | .long => "L"
  | .ulong => "UL"
  | .float => "F"
  | .double => "R"
  | .decimal => "D"

def exitWord (exit : ExitKind) : String := exit.name

/-! ## Literals -/

def quote (cs : List Char) : String :=
  String.ofList ('"' :: (cs.flatMap (fun c => if c = '"' then ['"', '"'] else [c]) ++ ['"']))

/-- The character with the code of a control character. -/
def charCall (c : Char) : String := "ChrW(" ++ toString c.toNat ++ ")"

/-- The parts of a text: runs of other characters in quotes and single control characters; `run` is
the run before the text, latest character first. -/
def stringParts (run : List Char) : List Char → List String
  | [] => if run.isEmpty then [] else [quote run.reverse]
  | c :: cs =>
    if Text.isControl c then
      (if run.isEmpty then [] else [quote run.reverse]) ++ charCall c :: stringParts [] cs
    else stringParts (c :: run) cs

/-- A string as the concatenation of its parts. -/
def stringText (s : String) : String :=
  match stringParts [] s.toList with
  | [] => quote []
  | [part] => part
  | parts => "(" ++ " & ".intercalate parts ++ ")"

def literalText : LiteralValue → String
  | .null => "Nothing"
  | .boolean b => if b then "True" else "False"
  | .integer n suffix => toString n ++ suffixText suffix
  | .real x suffix => RealNotation.marked.text x ++ suffixText suffix
  | .string s => stringText s
  | .char c => if Text.isControl c then charCall c else quote [c] ++ "c"

end DualSyntax.VisualBasic
