/-!
# Operators

The operators of both languages.  Where the languages spell one operation differently it is one
operator here; where only one language has it, the other writes it by other means.
-/

namespace DualSyntax

inductive BinaryOperator where
  | add | subtract | multiply | divide | modulus | integerDivide | power | concat | shiftLeft
  | shiftRight | bitwiseAnd | bitwiseOr | exclusiveOr | conditionalAnd | conditionalOr | equality
  | inEquality | lessThan | greaterThan | lessThanOrEqual | greaterThanOrEqual | nullCoalescing
  | referenceEquality | referenceInequality
deriving DecidableEq, Repr, Inhabited

namespace BinaryOperator

def all : List BinaryOperator :=
  [.add, .subtract, .multiply, .divide, .modulus, .integerDivide, .power, .concat, .shiftLeft,
   .shiftRight, .bitwiseAnd, .bitwiseOr, .exclusiveOr, .conditionalAnd, .conditionalOr, .equality,
   .inEquality, .lessThan, .greaterThan, .lessThanOrEqual, .greaterThanOrEqual, .nullCoalescing,
   .referenceEquality, .referenceInequality]

def name : BinaryOperator → String
  | add => "Add" | subtract => "Subtract" | multiply => "Multiply" | divide => "Divide"
  | modulus => "Modulus" | integerDivide => "IntegerDivide" | power => "Power"
  | concat => "Concat" | shiftLeft => "ShiftLeft" | shiftRight => "ShiftRight"
  | bitwiseAnd => "BitwiseAnd" | bitwiseOr => "BitwiseOr" | exclusiveOr => "ExclusiveOr"
  | conditionalAnd => "ConditionalAnd" | conditionalOr => "ConditionalOr" | equality => "Equality"
  | inEquality => "InEquality" | lessThan => "LessThan" | greaterThan => "GreaterThan"
  | lessThanOrEqual => "LessThanOrEqual" | greaterThanOrEqual => "GreaterThanOrEqual"
  | nullCoalescing => "NullCoalescing" | referenceEquality => "ReferenceEquality"
  | referenceInequality => "ReferenceInequality"

def ofName? (s : String) : Option BinaryOperator := all.find? (·.name == s)

/-- How tightly an operator binds in C#; a higher number binds tighter. -/
def precedence : BinaryOperator → Nat
  | nullCoalescing => 1
  | conditionalOr => 2
  | conditionalAnd => 3
  | bitwiseOr => 4
  | exclusiveOr => 5
  | bitwiseAnd => 6
  | equality | inEquality | referenceEquality | referenceInequality => 7
  | lessThan | greaterThan | lessThanOrEqual | greaterThanOrEqual => 8
  | shiftLeft | shiftRight => 9
  | concat => 10
  | add | subtract => 11
  | modulus => 12
  | integerDivide => 13
  | multiply | divide => 14
  | power => 15

end BinaryOperator

inductive UnaryOperator where
  | not | bitNot | minus | plus | increment | decrement | postIncrement | postDecrement
deriving DecidableEq, Repr, Inhabited

namespace UnaryOperator

def all : List UnaryOperator :=
  [.not, .bitNot, .minus, .plus, .increment, .decrement, .postIncrement, .postDecrement]

def name : UnaryOperator → String
  | not => "Not" | bitNot => "BitNot" | minus => "Minus" | plus => "Plus"
  | increment => "Increment" | decrement => "Decrement" | postIncrement => "PostIncrement"
  | postDecrement => "PostDecrement"

def ofName? (s : String) : Option UnaryOperator := all.find? (·.name == s)

/-- The operators written after their operand. -/
def isSuffix : UnaryOperator → Bool
  | postIncrement | postDecrement => true
  | _ => false

end UnaryOperator

inductive AssignmentOperator where
  | assign | add | subtract | multiply | divide | modulus | integerDivide | power | concat
  | shiftLeft | shiftRight | bitwiseAnd | bitwiseOr | exclusiveOr
deriving DecidableEq, Repr, Inhabited

namespace AssignmentOperator

def all : List AssignmentOperator :=
  [.assign, .add, .subtract, .multiply, .divide, .modulus, .integerDivide, .power, .concat,
   .shiftLeft, .shiftRight, .bitwiseAnd, .bitwiseOr, .exclusiveOr]

def name : AssignmentOperator → String
  | assign => "Assign" | add => "Add" | subtract => "Subtract" | multiply => "Multiply"
  | divide => "Divide" | modulus => "Modulus" | integerDivide => "IntegerDivide"
  | power => "Power" | concat => "Concat" | shiftLeft => "ShiftLeft" | shiftRight => "ShiftRight"
  | bitwiseAnd => "BitwiseAnd" | bitwiseOr => "BitwiseOr" | exclusiveOr => "ExclusiveOr"

def ofName? (s : String) : Option AssignmentOperator := all.find? (·.name == s)

/-- The binary operator that a compound assignment applies. -/
def binary? : AssignmentOperator → Option BinaryOperator
  | assign => none
  | add => some .add
  | subtract => some .subtract
  | multiply => some .multiply
  | divide => some .divide
  | modulus => some .modulus
  | integerDivide => some .integerDivide
  | power => some .power
  | concat => some .concat
  | shiftLeft => some .shiftLeft
  | shiftRight => some .shiftRight
  | bitwiseAnd => some .bitwiseAnd
  | bitwiseOr => some .bitwiseOr
  | exclusiveOr => some .exclusiveOr

end AssignmentOperator

end DualSyntax
