import DualSyntax.Diagnostic.Report
import DualSyntax.Language.Basic
import DualSyntax.Lexing.Fault
import DualSyntax.Token.Kind

/-!
# Syntax diagnostics

What a parse has to say about a source text.  Each kind of diagnostic has a number, and the band
that the number falls into decides how serious it is.
-/

namespace DualSyntax

inductive Issue where
  | unexpectedToken | unexpectedEnd | invalidToken | emptyStatement | redundantSemicolon
deriving DecidableEq, Repr, Inhabited

namespace Issue

def code : Issue → Nat
  | unexpectedToken => 1
  | unexpectedEnd => 2
  | invalidToken => 3
  | emptyStatement => 1001
  | redundantSemicolon => 2001

/-- Numbers below 1000 are errors, below 2000 warnings, above messages. -/
def severity (i : Issue) : Severity :=
  if i.code < 1000 then .error else if i.code < 2000 then .warning else .message

def name : Issue → String
  | unexpectedToken => "UnexpectedToken"
  | unexpectedEnd => "UnexpectedEndOfFile"
  | invalidToken => "InvalidToken"
  | emptyStatement => "PossibleMistakenEmptyStatement"
  | redundantSemicolon => "RedundantSemicolon"

def message : Issue → String
  | unexpectedToken => "unexpected token"
  | unexpectedEnd => "unexpected end of file"
  | invalidToken => "invalid token"
  | emptyStatement => "possible mistaken empty statement"
  | redundantSemicolon => "redundant semicolon"

def ofLanguage : Language → List Issue
  | .csharp =>
    [unexpectedToken, unexpectedEnd, invalidToken, emptyStatement, redundantSemicolon]
  | .visualBasic => [unexpectedToken, unexpectedEnd, invalidToken]

/-- The number with four digits after the letters of the language. -/
def label (i : Issue) (l : Language) : String :=
  let digits := toString i.code
  (match l with
    | .csharp => "CS"
    | .visualBasic => "BC") ++ String.ofList (List.replicate (4 - digits.length) '0') ++ digits

end Issue

structure Diagnostic where
  language : Language
  issue : Issue
  span : Span
  /-- The position of the start of the span. -/
  location : LineColumn
  /-- What the grammar would have accepted, and what it found, if the parse failed here. -/
  mismatch : Option (List TokenKind × TokenKind) := none
deriving DecidableEq, Repr, Inhabited

namespace Diagnostic

def expected (d : Diagnostic) : List TokenKind := d.mismatch.elim [] (·.1)

def found (d : Diagnostic) : Option TokenKind := d.mismatch.map (·.2)

def message (d : Diagnostic) : String :=
  match d.mismatch with
  | none => d.issue.message
  | some ([], found) => d.issue.message ++ ": `" ++ found.name ++ "`"
  | some (expected, found) =>
    "expected " ++ " or ".intercalate (expected.map fun k => "`" ++ k.name ++ "`") ++
      ", found `" ++ found.name ++ "`"

def isError (d : Diagnostic) : Bool := d.issue.severity == .error

/-- The report of a diagnostic. -/
def report (d : Diagnostic) : Report :=
  ⟨d.issue.label d.language, d.issue.severity, d.message, d.issue.message, d.span⟩

end Diagnostic

def LexFault.report (f : LexFault) : Report :=
  ⟨f.kind.code, .error, f.message, f.kind.remark, f.span⟩

end DualSyntax
