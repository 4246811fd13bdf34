import DualSyntax.Forest.Basic
import DualSyntax.Style
import DualSyntax.Text.Blank

/-!
# Output

Text is written piece by piece.  The first piece on a line is indented, trailing spaces are taken
off when the line ends, and the bytes that each node takes up are noted.
-/

namespace DualSyntax

/-- A text under construction. -/
structure Output where
  /-- One level of indentation. -/
  unit : List Char
  /-- The text so far, latest character first. -/
  reversed : List Char := []
  /-- The number of bytes so far. -/
  length : Nat := 0
  level : Nat := 0
  atLineStart : Bool := true
  /-- The nodes being written, innermost first, with the offsets where they start. -/
  opened : List (NodeId × Nat) := []
  /-- The spans of the nodes written so far, latest first. -/
  spans : List (NodeId × Span) := []
deriving Inhabited

inductive OutputStep where
  | text (s : String)
  /-- A space between two pieces. -/
  | space
  | newLine
  | indent
  | unindent
  /-- The text of a node starts here. -/
  | start (n : NodeId)
  /-- The text of a node ends here. -/
  | stop (n : NodeId)
deriving DecidableEq, Repr, Inhabited

namespace Output

/-- An empty text in a style.  There is none if a level of indentation is too long. -/
def empty? (style : Style) : Option Output := style.indentUnit?.map fun unit => { unit }

def text (o : Output) : String := String.ofList o.reversed.reverse

def add (o : Output) (cs : List Char) : Output :=
  { o with reversed := cs.reverse ++ o.reversed, length := o.length + Text.byteLength cs }

def addIndent (o : Output) : Output :=
  { o.add (List.replicate o.level o.unit).flatten with atLineStart := false }

/-- Writes a piece; the first one on a line is indented. -/
def push (o : Output) (s : String) : Output :=
  if o.atLineStart && !s.isEmpty then o.addIndent.add s.toList else o.add s.toList

/-- Writes a space, unless the line is empty or ends with one. -/
def space (o : Output) : Output :=
  if o.atLineStart || o.reversed.head? == some ' ' then o else o.add [' ']

/-- Ends the line without the spaces at its end. -/
def newLine (o : Output) : Output :=
  let kept := o.reversed.dropWhile (· == ' ')
  let dropped := o.reversed.length - kept.length
  { o with reversed := '\n' :: kept, length := o.length - dropped + 1, atLineStart := true }

/-- Indents the lines that follow by one more level. -/
def indent (o : Output) : Output := { o with level := o.level + 1 }

/-- Indents the lines that follow by one level less. -/
def unindent (o : Output) : Output := { o with level := o.level - 1 }

/-- Notes where a node starts; indentation that is still to be written does not belong to it. -/
def startNode (o : Output) (n : NodeId) : Output :=
  let pending := if o.atLineStart then Text.byteLength o.unit * o.level else 0
  { o with opened := (n, o.length + pending) :: o.opened }

/-- The number of bytes of the text without the white space at its end. -/
def trimmedLength (o : Output) : Nat :=
  o.length - Text.byteLength (o.reversed.takeWhile Text.isBlank)

/-- Notes where the innermost node being written ends.  There is no output if this is another
node; without a node being written nothing happens. -/
def endNode? (o : Output) (n : NodeId) : Option Output :=
  match o.opened with
  | [] => some o
  | (m, start) :: rest =>
    if m = n then
      some { o with
        opened := rest
        spans := (n, ⟨start, max start o.trimmedLength⟩) :: o.spans }
    else none

/-- Takes a step.  There is no output if a node ends inside another. -/
def step? (o : Output) : OutputStep → Option Output
  | .text s => some (o.push s)
  | .space => some o.space
  | .newLine => some o.newLine
  | .indent => some o.indent
  | .unindent => some o.unindent
  | .start n => some (o.startNode n)
  | .stop n => o.endNode? n

def run? (o : Output) (steps : List OutputStep) : Option Output := steps.foldlM step? o

/-- The bytes that a node takes up; if it was written more than once, the last time counts. -/
def spanOf? (o : Output) (n : NodeId) : Option Span := (o.spans.find? (·.1 == n)).map (·.2)

end Output

end DualSyntax
