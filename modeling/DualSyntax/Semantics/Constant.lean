import DualSyntax.Decimal.Remainder
import DualSyntax.Node.Kind
import DualSyntax.Semantics.Definition

/-!
# Constants

The values of constant expressions and the operations on them.  Integers are exact within 128 bits;
an operation whose result does not fit has none.
-/

namespace DualSyntax

inductive ConstantValue where
  | null
  | boolean (b : Bool)
  | integer (i : Int)
  | real (x : Float)
  | string (s : String)
  | char (c : Char)
deriving BEq, Inhabited

namespace ConstantValue

def ofLiteral : LiteralValue → ConstantValue
  | .null => null
  | .boolean b => boolean b
  | .integer n _ => integer n
  | .real x _ => real x
  | .string s => string s
  | .char c => char c

def text : ConstantValue → String
  | null => ""
  | boolean b => if b then "True" else "False"
  | integer i => toString i
  | real x => RealNotation.plain.text x
  | string s => s
  | char c => String.singleton c

def detail : ConstantValue → String
  | null => "Null"
  | boolean b => s!"Boolean({b})"
  | integer i => s!"Integer({i})"
  | real x => "Real(" ++ RealNotation.marked.text x ++ ")"
  | string s => "String(" ++ Text.quoted s ++ ")"
  | char c => "Char(" ++ Text.quotedChar c ++ ")"

end ConstantValue

def NumberSuffix.type? : NumberSuffix → Option KnownType
  | none => Option.none
  | short => some .int16
  | ushort => some .uint16
  | integer => some .int32
  | uinteger => some .uint32
  | long => some .int64
  | ulong => some .uint64
  | float => some .single
  | double => some .double
  | decimal => some .decimal

/-- The built-in type of a literal.  An integer without a suffix has the first of four types that
holds it. -/
def LiteralValue.type? : LiteralValue → Option KnownType
  | null => none
  | boolean _ => some .boolean
  | string _ => some .string
  | char _ => some .char
  | integer n .none =>
    some (if n < Nat.pow 2 31 then .int32 else if n < Nat.pow 2 32 then .uint32
      else if n < Nat.pow 2 63 then .int64 else .uint64)
  | real _ .none => some .double
  | integer _ suffix | real _ suffix => suffix.type?

namespace Folding

/-! ## Integers of 128 bits -/

/-- The bound of the integers of 128 bits: it is the first that does not fit. -/
def bound : Int := Int.ofNat (Nat.pow 2 127)

/-- An integer that fits into 128 bits. -/
def fit? (i : Int) : Option Int := if -bound ≤ i ∧ i < bound then some i else none

/-- The integer with the low 128 bits of an integer. -/
def wrap (i : Int) : Int := i.bmod (Nat.pow 2 128)

/-- A bitwise operation on the two's complement of two integers. -/
def bitwise (f : BitVec 128 → BitVec 128 → BitVec 128) (x y : Int) : Int :=
  (f (BitVec.ofInt 128 x) (BitVec.ofInt 128 y)).toInt

/-- A shift by fewer than 128 places. -/
def shift? (f : Int → Nat → Int) (x y : Int) : Option Int :=
  if 0 ≤ y ∧ y < 128 then some (wrap (f x y.toNat)) else none

/-- The result of an operator on integers.  Division goes toward zero, and the remainder has the
sign of the dividend. -/
def integers? (op : BinaryOperator) (x y : Int) : Option Int :=
  match op with
  | .add => fit? (x + y)
  | .subtract => fit? (x - y)
  | .multiply => fit? (x * y)
  | .divide | .integerDivide => if y = 0 then none else fit? (x.tdiv y)
  | .modulus => if y = 0 then none else (fit? (x.tdiv y)).map fun _ => x.tmod y
  | .shiftLeft => shift? (fun x n => x * Int.ofNat (Nat.pow 2 n)) x y
  | .shiftRight => shift? (fun x n => x / Int.ofNat (Nat.pow 2 n)) x y
  | .bitwiseAnd => some (bitwise (· &&& ·) x y)
  | .bitwiseOr => some (bitwise (· ||| ·) x y)
  | .exclusiveOr => some (bitwise (· ^^^ ·) x y)
  | _ => none

/-! ## Numbers -/

inductive Numeral where
  | integer (i : Int)
  | real (x : Float)
deriving Inhabited

namespace Numeral

/-- The number that a value is; characters count by their codes. -/
def of? : ConstantValue → Option Numeral
  | .integer i => some (integer i)
  | .real x => some (real x)
  | .char c => some (integer c.toNat)
  | _ => none

/-- The nearest real number. -/
def toReal : Numeral → Float
  | integer i => Float.ofInt i
  | real x => x

/-- How two numbers compare; a number that is none compares with nothing. -/
def compare? : Numeral → Numeral → Option Ordering
  | integer x, integer y => some (compare x y)
  | a, b =>
    let x := a.toReal
    let y := b.toReal
    if x < y then some .lt else if y < x then some .gt else if x == y then some .eq else none

end Numeral

def reals? (op : BinaryOperator) (x y : Float) : Option Float :=
  match op with
  | .add => some (x + y)
  | .subtract => some (x - y)
  | .multiply => some (x * y)
  | .divide => some (x / y)
  | .integerDivide => some (Double.truncate (x / y))
  | .modulus => some (Double.remainder x y)
  | _ => none

def numbers? (op : BinaryOperator) (a b : Numeral) : Option ConstantValue :=
  let ordered (holds : Ordering → Bool) : Option ConstantValue :=
    (a.compare? b).map fun o => .boolean (holds o)
  match op with
  | .equality => ordered (· == .eq)
  | .inEquality => ordered (· != .eq)
  | .lessThan => ordered (· == .lt)
  | .greaterThan => ordered (· == .gt)
  | .lessThanOrEqual => ordered (· != .gt)
  | .greaterThanOrEqual => ordered (· != .lt)
  | .power => some (.real (a.toReal ^ b.toReal))
  | op =>
    match a, b with
    | .integer x, .integer y => (integers? op x y).map .integer
    | a, b => (reals? op a.toReal b.toReal).map .real

def booleans? (op : BinaryOperator) (x y : Bool) : Option Bool :=
  match op with
  | .conditionalAnd | .bitwiseAnd => some (x && y)
  | .conditionalOr | .bitwiseOr => some (x || y)
  | .exclusiveOr | .inEquality => some (x != y)
  | .equality => some (x == y)
  | _ => none

/-- The result of a binary operator.  Whatever is added to a string is concatenated. -/
def binary? (op : BinaryOperator) (a b : ConstantValue) : Option ConstantValue :=
  match op, a, b with
  | .nullCoalescing, .null, b => some b
  | .nullCoalescing, a, _ => some a
  | .concat, a, b => some (.string (a.text ++ b.text))
  | .add, .string x, b => some (.string (x ++ b.text))
  | .add, a, .string y => some (.string (a.text ++ y))
  | .equality, .string x, .string y => some (.boolean (x == y))
  | .inEquality, .string x, .string y => some (.boolean (x != y))
  | _, .string _, .string _ => none
  | op, .boolean x, .boolean y => (booleans? op x y).map .boolean
  | .equality, .null, .null | .referenceEquality, .null, .null => some (.boolean true)
  | .inEquality, .null, .null | .referenceInequality, .null, .null => some (.boolean false)
  | op, a, b => do numbers? op (← Numeral.of? a) (← Numeral.of? b)

def unary? (op : UnaryOperator) (a : ConstantValue) : Option ConstantValue :=
  match op, a with
  | .plus, .integer i => some (.integer i)
  | .plus, .real x => some (.real x)
  | .minus, .integer i => (fit? (-i)).map .integer
  | .minus, .real x => some (.real (-x))
  | .not, .boolean b => some (.boolean !b)
  | .not, .integer i | .bitNot, .integer i => some (.integer (-i - 1))
  | _, _ => none

def convert? (value : ConstantValue) (target : KnownType) : Option ConstantValue :=
  let isReal := target == .single || target == .double || target == .decimal
  match value with
  | .integer i =>
    if target.isIntegral then some (.integer i)
    else if isReal then some (.real (Float.ofInt i)) else none
  | .real x =>
    if target.isIntegral then some (.integer (Double.toInteger (-bound) (bound - 1) x))
    else if isReal then some (.real x) else none
  | .char c =>
    if target.isIntegral then some (.integer c.toNat)
    else if target == .char then some (.char c) else none
  | .string s => if target == .string then some (.string s) else none
  | .boolean b => if target == .boolean then some (.boolean b) else none
  | .null => none

/-! ## Types -/

def typeOf : ConstantValue → TypeRef
  | .null => .null
  | .boolean _ => .known .boolean
  | .integer _ => .known .int32
  | .real _ => .known .double
  | .string _ => .known .string
  | .char _ => .known .char

def isSigned : KnownType → Bool
  | .sbyte | .int16 | .int32 | .int64 => true
  | _ => false

/-- The type in which an operator works on two numeric types. -/
def promote? (a b : KnownType) : Option KnownType :=
  let either (t : KnownType) : Bool := a == t || b == t
  if !a.isNumeric || !b.isNumeric then none
  else if either .decimal then some .decimal
  else if either .double then some .double
  else if either .single then some .single
  else if either .uint64 then some .uint64
  else if either .int64 then some .int64
  else if (a == .uint32 && isSigned b) || (b == .uint32 && isSigned a) then some .int64
  else if either .uint32 then some .uint32
  else some .int32

def knownType? (op : BinaryOperator) (a b : KnownType) : Option KnownType :=
  match op with
  | .add => if a == .string || b == .string then some .string else promote? a b
  | .bitwiseAnd | .bitwiseOr | .exclusiveOr =>
    if a == .boolean && b == .boolean then some .boolean else promote? a b
  | .shiftLeft | .shiftRight => promote? a .int32
  | _ => promote? a b

def binaryType? (op : BinaryOperator) (left right : Option TypeRef) : Option TypeRef :=
  match op with
  | .equality | .inEquality | .lessThan | .greaterThan | .lessThanOrEqual | .greaterThanOrEqual
  | .conditionalAnd | .conditionalOr | .referenceEquality | .referenceInequality =>
    some (.known .boolean)
  | .concat => some (.known .string)
  | .nullCoalescing =>
    match left with
    | some .null | none => right
    | left => left
  | .power => some (.known .double)
  | op =>
    match left, right with
    | some (.known a), some (.known b) => (knownType? op a b).map .known
    | _, _ => none

end Folding

end DualSyntax
