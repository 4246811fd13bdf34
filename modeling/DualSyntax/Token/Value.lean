import DualSyntax.Decimal.Notation
import DualSyntax.Text.Quoted

/-!
# Literal values

The value a literal denotes, whichever language it is spelled in.  Number suffixes are normalised:
`1UL` in one language and `1UL` in the other denote the same pair of a number and a suffix.
-/

namespace DualSyntax

inductive NumberSuffix where
  | none | short | ushort | integer | uinteger | long | ulong | float | double | decimal
deriving DecidableEq, Repr, Inhabited

namespace NumberSuffix

def all : List NumberSuffix :=
  [.none, .short, .ushort, .integer, .uinteger, .long, .ulong, .float, .double, .decimal]

def name : NumberSuffix → String
  | none => "None" | short => "Short" | ushort => "UShort" | integer => "Integer"
  | uinteger => "UInteger" | long => "Long" | ulong => "ULong" | float => "Float"
  | double => "Double" | decimal => "Decimal"

def ofName? (s : String) : Option NumberSuffix := all.find? (·.name == s)

/-- The suffixes that make any number a real one. -/
def isReal : NumberSuffix → Bool
  | float | double | decimal => true
  | _ => false

end NumberSuffix

/-- The interpreted value of a literal.  Reals are compared as numbers, so a NaN equals nothing. -/
inductive LiteralValue where
  | null
  | boolean (b : Bool)
  | integer (value : Nat) (suffix : NumberSuffix)
  | real (value : Float) (suffix : NumberSuffix)
  | string (s : String)
  | char (c : Char)
deriving BEq, Inhabited

namespace LiteralValue

def text : LiteralValue → String
  | null => "null"
  | boolean b => toString b
  | integer n _ => toString n
  | real x _ => RealNotation.marked.text x
  | string s => Text.quoted s
  | char c => Text.quotedChar c

def detail : LiteralValue → String
  | null => "Null"
  | boolean b => s!"Boolean({b})"
  | integer n u => "Integer \x7b value: " ++ toString n ++ ", suffix: " ++ u.name ++ " \x7d"
  | real x u =>
    "Real \x7b value: " ++ RealNotation.marked.text x ++ ", suffix: " ++ u.name ++ " \x7d"
  | string s => "String(" ++ Text.quoted s ++ ")"
  | char c => "Char(" ++ Text.quotedChar c ++ ")"

end LiteralValue

end DualSyntax
