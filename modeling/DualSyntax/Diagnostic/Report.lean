import DualSyntax.Text.Blank
import DualSyntax.Text.Position

/-!
# Reports

A report quotes the source line at which something is wrong and marks the place with carets:

```text
error[CS0001]: unexpected token
--> a.cs:1:5
  |
1 | int = 3;
  |     ^ unexpected token
```
-/

namespace DualSyntax

inductive Severity where
  | error | warning | message
deriving DecidableEq, Repr, Inhabited

namespace Severity

def name : Severity → String
  | error => "error"
  | warning => "warning"
  | message => "message"

/-- The severity with a name; any other name is a message. -/
def ofName : String → Severity
  | "error" => error
  | "warning" => warning
  | _ => message

def colour : Severity → Nat
  | error => 31
  | warning => 33
  | message => 34

end Severity

structure Report where
  code : String
  severity : Severity
  message : String
  /-- The words next to the carets. -/
  remark : String
  span : Span
deriving DecidableEq, Repr, Inhabited

namespace Report

/-- The quoted line of a report. -/
structure Window where
  /-- The number of the line, counted from one. -/
  line : Nat
  /-- The line without the white space at its end. -/
  text : List Char
  /-- The marked bytes, relative to the line. -/
  marked : Span
deriving DecidableEq, Repr, Inhabited

/-- The window of a report.  A span over several lines is cut at the end of the first, and at least
one place is marked.  There is no window if the span ends before the line it starts in, if its start is
no proper position, or if a number counted from one or the end of the marks does not fit. -/
def window? (r : Report) (src : List Char) (lines : LineTable) : Option Window := do
  let position ← lines.lineColumn? r.span.start
  let lineSpan := lines.lineSpan r.span.start
  let text := Text.trimEnd (← lineSpan.text? src)
  let stop := min r.span.stop lineSpan.stop
  if stop < lineSpan.start || offsetLimit ≤ position.line + 1 || offsetLimit ≤ position.column + 1
  then none
  else
    let first := r.span.start - lineSpan.start
    if offsetLimit ≤ first + 1 then none
    else
      let last := max (min (stop - lineSpan.start) (Text.byteLength text)) (first + 1)
      return ⟨position.line + 1, text, ⟨first, last⟩⟩

/-- What ends a style on a terminal. -/
def plainMark : List Char := "\x1b[0m".toList

/-- Starts a style again after each mark that ends it. -/
def resume (style : List Char) : List Char → List Char
  | [] => []
  | '\x1b' :: '[' :: '0' :: 'm' :: cs => plainMark ++ style ++ resume style cs
  | c :: cs => c :: resume style cs

/-- A text in bold, in a colour if one is given, or as it is without colours.  A text that ends the
style stays bold after that. -/
def bold (colours : Bool) (colour : Option Nat) (s : String) : String :=
  if colours then
    let style := ("\x1b[1" ++ colour.elim "" (fun n => s!";{n}") ++ "m").toList
    String.ofList (style ++ resume style s.toList ++ plainMark)
  else s

/-- The terminal colour of line numbers and bars. -/
def frameColour : Nat := 94

def header (r : Report) (colours : Bool) (file : String) (position : LineColumn) : String :=
  bold colours (some r.severity.colour) (r.severity.name ++ "[" ++ r.code ++ "]") ++ ": " ++
    bold colours none r.message ++ "\n--> " ++ file ++ ":" ++ toString position ++ "\n"

/-- The text of a window: the line number, the line and the carets under it. -/
def Window.show (w : Window) (r : Report) (colours : Bool) : String :=
  let number := toString w.line
  let indent := String.ofList (List.replicate number.length ' ')
  let bar := bold colours (some frameColour) "|"
  let carets := String.ofList <|
    List.replicate w.marked.start ' ' ++ List.replicate (w.marked.stop - w.marked.start) '^'
  let strong := bold colours (some r.severity.colour)
  indent ++ " " ++ bar ++ "\n" ++
    bold colours (some frameColour) number ++ " " ++ bar ++ " " ++ String.ofList w.text ++ "\n" ++
    indent ++ " " ++ bar ++ " " ++ strong carets ++ " " ++ strong r.remark ++ "\n"

/-- The text of a report, if it has a window. -/
def render? (r : Report) (colours : Bool) (file : String) (src : List Char) (lines : LineTable) :
    Option String := do
  let w ← r.window? src lines
  return r.header colours file (lines.lineColumn r.span.start) ++ w.show r colours

end Report

end DualSyntax
