import DualSyntax.Text.Position

/-!
# Lexical errors

A source text with one of these errors has no tokens at all.
-/

namespace DualSyntax

inductive LexFaultKind where
  | tooManyDecimalPoints | unterminatedString | unterminatedComment | invalidEscape
  | invalidCharLiteral
deriving DecidableEq, Repr, Inhabited

structure LexFault where
  kind : LexFaultKind
  span : Span
deriving DecidableEq, Repr, Inhabited

namespace LexFaultKind

def name : LexFaultKind → String
  | tooManyDecimalPoints => "TooManyDecimalPoints"
  | unterminatedString => "UnterminatedString"
  | unterminatedComment => "UnterminatedComment"
  | invalidEscape => "InvalidEscape"
  | invalidCharLiteral => "InvalidCharLiteral"

def code : LexFaultKind → String
  | tooManyDecimalPoints => "L0001"
  | unterminatedString => "L0002"
  | unterminatedComment => "L0003"
  | invalidEscape => "L0004"
  | invalidCharLiteral => "L0005"

def sentence : LexFaultKind → String
  | tooManyDecimalPoints => "Too many decimal points in number literal"
  | unterminatedString => "Unterminated string literal"
  | unterminatedComment => "Unterminated block comment"
  | invalidEscape => "Invalid escape sequence"
  | invalidCharLiteral => "Character literal must contain exactly one character"

/-- The remark under the source line that a report quotes. -/
def remark : LexFaultKind → String
  | tooManyDecimalPoints => "second decimal point"
  | unterminatedString => "unterminated string"
  | unterminatedComment => "unterminated comment"
  | invalidEscape => "invalid escape"
  | invalidCharLiteral => "invalid character literal"

end LexFaultKind

namespace LexFault

def message (f : LexFault) : String := s!"{f.kind.sentence} ({f.span})"

/-- The same error further on in the text. -/
def shift (f : LexFault) (o : Nat) : LexFault := ⟨f.kind, ⟨o + f.span.start, o + f.span.stop⟩⟩

/-- A message that quotes the source, if the span of the error can be cut out of it. -/
def detailedMessage? (f : LexFault) (src : List Char) : Option String :=
  (f.span.text? src).map fun cs =>
    let text := String.ofList cs
    match f.kind with
    | .tooManyDecimalPoints => "number literal `" ++ text ++ "` has more than one decimal point"
    | .unterminatedString => "string literal is not closed"
    | .unterminatedComment => "block comment is not closed"
    | .invalidEscape => "unknown escape sequence `" ++ text ++ "`"
    | .invalidCharLiteral => "`" ++ text ++ "` is not a single character literal"

end LexFault

end DualSyntax
