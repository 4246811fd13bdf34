import DualSyntax.Token.Kind

/-!
# Built-in types

The types with a keyword of their own in both languages, and the implicit conversions between
numbers.
-/

namespace DualSyntax

/-- A type with a keyword in both languages. -/
inductive KnownType where
  | void | object | string | boolean | char | sbyte | byte | int16 | uint16 | int32 | uint32
  | int64 | uint64 | single | double | decimal
deriving DecidableEq, Repr, Inhabited

namespace KnownType

def all : List KnownType :=
  [.void, .object, .string, .boolean, .char, .sbyte, .byte, .int16, .uint16, .int32, .uint32,
   .int64, .uint64, .single, .double, .decimal]

def name : KnownType → String
  | void => "Void" | object => "Object" | string => "String" | boolean => "Boolean"
  | char => "Char" | sbyte => "SByte" | byte => "Byte" | int16 => "Int16" | uint16 => "UInt16"
  | int32 => "Int32" | uint32 => "UInt32" | int64 => "Int64" | uint64 => "UInt64"
  | single => "Single" | double => "Double" | decimal => "Decimal"

def ofName? (s : String) : Option KnownType := all.find? (·.name == s)

def csharpWord : KnownType → String
  | void => "void" | object => "object" | string => "string" | boolean => "bool" | char => "char"
  | sbyte => "sbyte" | byte => "byte" | int16 => "short" | uint16 => "ushort" | int32 => "int"
  | uint32 => "uint" | int64 => "long" | uint64 => "ulong" | single => "float"
  | double => "double" | decimal => "decimal"

/-- The keyword of a type in VB.  There is none for the empty type, which VB expresses by the
choice between `Sub` and `Function`. -/
def visualBasicWord : KnownType → String
  | void => "Void" | object => "Object" | string => "String" | boolean => "Boolean"
  | char => "Char" | sbyte => "SByte" | byte => "Byte" | int16 => "Short" | uint16 => "UShort"
  | int32 => "Integer" | uint32 => "UInteger" | int64 => "Long" | uint64 => "ULong"
  | single => "Single" | double => "Double" | decimal => "Decimal"

def ofToken? : TokenKind → Option KnownType
  | .kwVoid => some void
  | .kwObject => some object
  | .kwString => some string
  | .kwBool | .kwBoolean => some boolean
  | .kwChar => some char
  | .kwSByte => some sbyte
  | .kwByte => some byte
  | .kwShort => some int16
  | .kwUShort => some uint16
  | .kwInt | .kwInteger => some int32
  | .kwUInt | .kwUInteger => some uint32
  | .kwLong => some int64
  | .kwULong => some uint64
  | .kwFloat | .kwSingle => some single
  | .kwDouble => some double
  | .kwDecimal => some decimal
  | _ => none

/-- The types of numbers; characters count as numbers. -/
def isNumeric : KnownType → Bool
  | void | object | string | boolean => false
  | _ => true

/-- The types of whole numbers. -/
def isIntegral : KnownType → Bool
  | sbyte | byte | int16 | uint16 | int32 | uint32 | int64 | uint64 => true
  | _ => false

/-- The other types to which a value converts without a cast. -/
def widerTypes : KnownType → List KnownType
  | sbyte => [.int16, .int32, .int64, .single, .double, .decimal]
  | byte => [.int16, .uint16, .int32, .uint32, .int64, .uint64, .single, .double, .decimal]
  | int16 => [.int32, .int64, .single, .double, .decimal]
  | uint16 => [.int32, .uint32, .int64, .uint64, .single, .double, .decimal]
  | char => [.uint16, .int32, .uint32, .int64, .uint64, .single, .double, .decimal]
  | int32 => [.int64, .single, .double, .decimal]
  | uint32 => [.int64, .uint64, .single, .double, .decimal]
  | int64 | uint64 => [.single, .double, .decimal]
  | single => [.double]
  | _ => []

/-- A value converts without a cast to its own type and to the wider ones. -/
def widensTo (a b : KnownType) : Bool := a == b || a.widerTypes.contains b

end KnownType

end DualSyntax
