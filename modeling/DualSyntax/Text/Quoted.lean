import DualSyntax.Text.Printable

/-!
# Quoted text

The written form of strings and characters in dumps and messages: wrapped in quotes, with the quote
itself, the backslash, the common control characters and everything that is not printable escaped.
-/

namespace DualSyntax.Text

def hexDigit (d : Nat) : Char := "0123456789abcdef".toList.getD d '0'

/-- The digits of a number in a base, least significant first, at most `fuel` of them. -/
def digitsRev (base : Nat) : Nat → Nat → List Nat
  | 0, _ => []
  | fuel + 1, n => if n < base then [n] else n % base :: digitsRev base fuel (n / base)

/-- A number in base 16, in lower case, without leading zeros. -/
def hexText (n : Nat) : List Char := ((digitsRev 16 (n.log2 / 4 + 1) n).reverse).map hexDigit

/-- A number in base 16, in upper case, without leading zeros. -/
def upperHexText (n : Nat) : List Char := (hexText n).map Char.toUpper

def escapeChar (quote c : Char) : List Char :=
  if c = '\x00' then ['\\', '0']
  else if c = '\t' then ['\\', 't']
  else if c = '\r' then ['\\', 'r']
  else if c = '\n' then ['\\', 'n']
  else if c = '\\' then ['\\', '\\']
  else if c = quote then ['\\', quote]
  else if isPrintable c then [c]
  else '\\' :: 'u' :: '\x7b' :: (hexText c.toNat ++ ['\x7d'])

def quoted (s : String) : String :=
  String.ofList ('"' :: (s.toList.flatMap (escapeChar '"') ++ ['"']))

def quotedChar (c : Char) : String :=
  String.ofList ('\x27' :: (escapeChar '\x27' c ++ ['\x27']))

end DualSyntax.Text
