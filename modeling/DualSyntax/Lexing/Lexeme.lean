import DualSyntax.Decimal.Reading
import DualSyntax.Language.Words
import DualSyntax.Lexing.Fault
import DualSyntax.Token.Value

/-!
# Lexemes

What both languages have in common: how words, numbers and symbols are read off the head of the
remaining text.  A scanning rule looks at the text and answers with the lexeme it finds at its
head, or with nothing; the lexeme says how many characters it takes.  Offsets inside a rule count
bytes from the head of the text.
-/

namespace DualSyntax.Lexing

/-- A lexeme at the head of a text: its kind, how many characters it takes and what it denotes. -/
structure Lexeme where
  kind : TokenKind
  length : Nat
  value : Option LiteralValue := none
deriving Inhabited

abbrev Found := Except LexFault (Option Lexeme)

/-- The first of the rules that finds something. -/
def firstOf (cs : List Char) : List (List Char → Found) → Found
  | [] => .ok none
  | rule :: rules =>
    match rule cs with
    | .ok none => firstOf cs rules
    | found => found

/-- Characters that begin a name: letters, the underscore and everything beyond ASCII. -/
def isNameStart (c : Char) : Bool := c.isAlpha || c == '_' || 0x80 ≤ c.toNat

def isNameBody (c : Char) : Bool := isNameStart c || Reading.isDigit c

/-- Digits and the separator between them. -/
def isDigitOrMark (c : Char) : Bool := Reading.isDigit c || c == '_'

def isHexDigit (c : Char) : Bool :=
  Reading.isDigit c || ('a' ≤ c && c ≤ 'f') || ('A' ≤ c && c ≤ 'F')

def isHexDigitOrMark (c : Char) : Bool := isHexDigit c || c == '_'

/-- The length of the longest run of characters with a property at the head of a text. -/
def runLength (p : Char → Bool) (cs : List Char) : Nat := (cs.takeWhile p).length

def headIs (p : Char → Bool) (cs : List Char) : Bool := cs.head?.any p

/-- Whether a text begins with a word whose letters may be in any case; the word is in lower
case. -/
def startsIgnoringCase (word : String) (cs : List Char) : Bool :=
  (cs.take word.length).map Char.toLower == word.toList

def blanks (isBlank : Char → Bool) (cs : List Char) : Option Lexeme :=
  if headIs isBlank cs then some ⟨.whitespace, runLength isBlank cs, none⟩ else none

/-- The length of the rest of a line without its line break, which is a line feed or a carriage
return and a line feed. -/
def lineLength (cs : List Char) : Nat :=
  let line := cs.takeWhile (· != '\n')
  if line.getLast? = some '\r' then line.length - 1 else line.length

/-- The first symbol of the table that the text begins with; the table lists longer ones first. -/
def symbol (table : List (String × TokenKind)) (cs : List Char) : Found :=
  .ok ((table.find? fun e => e.1.toList.isPrefixOf cs).map fun e => ⟨e.2, e.1.length, none⟩)

def booleanValue? : TokenKind → Option LiteralValue
  | .kwTrue => some (.boolean true)
  | .kwFalse => some (.boolean false)
  | _ => none

def word (l : Language) (cs : List Char) : Found :=
  if headIs isNameStart cs then
    let text := cs.takeWhile isNameBody
    let kind := (l.keyword? (String.ofList text)).getD .identifier
    .ok (some ⟨kind, text.length, booleanValue? kind⟩)
  else .ok none

/-- A character that begins nothing. -/
def unknown : Lexeme := ⟨.error, 1, none⟩

def withoutMarks (cs : List Char) : List Char := cs.filter (· != '_')

/-- The exponent part at the head of a text: the mark, an optional sign and at least one digit. -/
def exponentLength (cs : List Char) : Nat :=
  match cs with
  | e :: rest =>
    if e = 'e' ∨ e = 'E' then
      let sign := if headIs (fun c => c == '+' || c == '-') rest then 1 else 0
      let digits := rest.drop sign
      if headIs Reading.isDigit digits then 1 + sign + runLength isDigitOrMark digits else 0
    else 0
  | [] => 0

def pointAndDigit : List Char → Bool
  | '.' :: cs => headIs Reading.isDigit cs
  | _ => false

/-- The length of the fraction at the head of a text: a point and the digits after it. -/
def fractionLength (cs : List Char) : Nat :=
  if pointAndDigit cs then 1 + runLength isDigitOrMark (cs.drop 1) else 0

/-- The length of the digits at the head of a text, the fraction after them included. -/
def mantissaLength (cs : List Char) : Nat :=
  let whole := runLength isDigitOrMark cs
  whole + fractionLength (cs.drop whole)

/-- The lexeme of a decimal number whose digits take `digits` characters and whose letters after
them spell `suffix`.  A number that does not fit and an unknown suffix make an error token. -/
def decimalLexeme (digits : List Char) (hasPoint : Bool) (length : Nat) :
    Option NumberSuffix → Lexeme
  | none => ⟨.error, length, none⟩
  | some suffix =>
    let text := withoutMarks digits
    if hasPoint || suffix.isReal then
      match Reading.real? (String.ofList text) with
      | some x => ⟨.realLiteral, length, some (.real x suffix)⟩
      | none => ⟨.error, length, none⟩
    else
      match Reading.below? (Nat.pow 2 64) 10 text with
      | some n => ⟨.integerLiteral, length, some (.integer n suffix)⟩
      | none => ⟨.error, length, none⟩

/-- A decimal number: digits with an optional fraction, an optional exponent and letters for the
suffix.  A point belongs to the number only if a digit follows it; a second such point is an
error. -/
def decimal (suffix? : String → Option NumberSuffix) (cs : List Char) : Found :=
  if headIs Reading.isDigit cs || pointAndDigit cs then
    let hasFraction := pointAndDigit (cs.drop (runLength isDigitOrMark cs))
    let mantissa := mantissaLength cs
    let rest := cs.drop mantissa
    if hasFraction && pointAndDigit rest then
      .error ⟨.tooManyDecimalPoints, ⟨0, mantissa + 1⟩⟩
    else
      let exponent := exponentLength rest
      let digits := cs.take (mantissa + exponent)
      let letters := (rest.drop exponent).takeWhile Char.isAlpha
      .ok (some (decimalLexeme digits (hasFraction || exponent != 0)
        (digits.length + letters.length) (suffix? (String.ofList letters))))
  else .ok none

/-- A hexadecimal number after a mark of `mark` characters. -/
def hexadecimal (mark : Nat) (suffix? : String → Option NumberSuffix) (cs : List Char) : Lexeme :=
  let digits := (cs.drop mark).takeWhile isHexDigitOrMark
  let letters := (cs.drop (mark + digits.length)).takeWhile Char.isAlpha
  let length := mark + digits.length + letters.length
  match Reading.below? (Nat.pow 2 64) 16 (withoutMarks digits), suffix? (String.ofList letters) with
  | some n, some suffix => ⟨.integerLiteral, length, some (.integer n suffix)⟩
  | _, _ => ⟨.error, length, none⟩

/-- A text that stands between quotes where a doubled quote stands for one.  The answer is the
denoted text and the number of characters up to and including the closing quote.  `o` is the
offset of the text from the start of the literal. -/
def doubledQuoteBody (lineBreaks : Bool) (o : Nat) :
    List Char → Except LexFault (List Char × Nat)
  | [] => .error ⟨.unterminatedString, ⟨0, o⟩⟩
  | '"' :: '"' :: cs =>
    (doubledQuoteBody lineBreaks (o + 2) cs).map fun (value, n) => ('"' :: value, n + 2)
  | '"' :: _ => .ok ([], 1)
  | c :: cs =>
    if c = '\n' ∧ lineBreaks = false then .error ⟨.unterminatedString, ⟨0, o⟩⟩
    else (doubledQuoteBody lineBreaks (o + c.utf8Size) cs).map fun (value, n) => (c :: value, n + 1)

/-- The lexeme of a character literal that denotes the given text, which must be one character. -/
def charLexeme (value : List Char) (text : List Char) : Found :=
  match value with
  | [c] => .ok (some ⟨.charLiteral, text.length, some (.char c)⟩)
  | _ => .error ⟨.invalidCharLiteral, ⟨0, Text.byteLength text⟩⟩

end DualSyntax.Lexing
