/-!
# Offsets, spans and line tables

Source positions are UTF-8 byte offsets; people read them as a line and a column, the column
counted in characters.  A `LineTable` converts between the two.  Offsets are 32-bit quantities, and
an operation whose result does not fit is refused (`none`) instead of wrapping.
-/

namespace DualSyntax

/-- The first number that is no offset. -/
def offsetLimit : Nat := Nat.pow 2 32

/-- A half-open range of byte offsets. -/
structure Span where
  /-- The offset of the first byte. -/
  start : Nat
  /-- The offset just past the last byte. -/
  stop : Nat
deriving DecidableEq, Repr, Inhabited

namespace Span

def emptyAt (o : Nat) : Span := ⟨o, o⟩

/-- The number of bytes, unless the span is reversed. -/
def length? (s : Span) : Option Nat :=
  if s.start ≤ s.stop then some (s.stop - s.start) else none

def isEmpty (s : Span) : Bool := s.start == s.stop

def cover (s t : Span) : Span := ⟨min s.start t.start, max s.stop t.stop⟩

instance : ToString Span where
  toString s := s!"{s.start}..{s.stop}"

end Span

namespace Text

def byteLength : List Char → Nat
  | [] => 0
  | c :: cs => c.utf8Size + byteLength cs

/-- The text after the first `n` bytes, if a character ends there. -/
def dropBytes? : Nat → List Char → Option (List Char)
  | 0, cs => some cs
  | _ + 1, [] => none
  | n + 1, c :: cs => if c.utf8Size ≤ n + 1 then dropBytes? (n + 1 - c.utf8Size) cs else none

/-- The first `n` bytes of a text, if a character ends there. -/
def takeBytes? : Nat → List Char → Option (List Char)
  | 0, _ => some []
  | _ + 1, [] => none
  | n + 1, c :: cs =>
    if c.utf8Size ≤ n + 1 then (takeBytes? (n + 1 - c.utf8Size) cs).map (c :: ·) else none

end Text

/-- The characters of `src` under a span, if the span is not reversed, lies inside the text and
both its ends are character boundaries. -/
def Span.text? (s : Span) (src : List Char) : Option (List Char) := do
  let n ← s.length?
  Text.takeBytes? n (← Text.dropBytes? s.start src)

structure LineColumn where
  line : Nat := 0
  column : Nat := 0
deriving DecidableEq, Repr, Inhabited

namespace LineColumn

/-- The value of a coordinate: one that is no offset counts as the greatest offset. -/
def clamp (x : Int) : Nat :=
  if 0 ≤ x ∧ x < (offsetLimit : Int) then x.toNat else offsetLimit - 1

/-- The position with the given coordinates, each clamped. -/
def ofInts (line column : Int) : LineColumn := ⟨clamp line, clamp column⟩

instance : ToString LineColumn where
  toString p := s!"{p.line + 1}:{p.column + 1}"

end LineColumn

structure TextRange where
  start : LineColumn := {}
  stop : LineColumn := {}
deriving DecidableEq, Repr, Inhabited

/-- What a line table knows of a line. -/
structure LineInfo where
  /-- The offset of the first byte of the line. -/
  start : Nat
  /-- The spans of the characters of the line that take more than one byte. -/
  wide : List Span
deriving DecidableEq, Repr, Inhabited

/-- The lines of a source text. -/
structure LineTable where
  /-- The lines in order; there is always a first one. -/
  lines : List LineInfo
  /-- The length of the text in bytes. -/
  stop : Nat
deriving DecidableEq, Repr, Inhabited

namespace LineTable

/-- The lines of a text that begins at offset `o` inside the line that starts at `start`, whose
wide characters so far are `wide`, latest first. -/
def scan (start : Nat) (wide : List Span) (o : Nat) : List Char → List LineInfo
  | [] => [⟨start, wide.reverse⟩]
  | c :: cs =>
    let next := o + c.utf8Size
    if c = '\n' then ⟨start, wide.reverse⟩ :: scan next [] next cs
    else if 1 < c.utf8Size then scan start (⟨o, next⟩ :: wide) next cs
    else scan start wide next cs

def ofText (src : List Char) : LineTable := ⟨scan 0 [] 0 src, Text.byteLength src⟩

def size (t : LineTable) : Nat := t.lines.length

/-- The index of the line that holds an offset: the last line that starts at or before it. -/
def lineIndex (t : LineTable) (o : Nat) : Nat := t.lines.countP (fun l => l.start ≤ o) - 1

def lineAt (t : LineTable) (o : Nat) : LineInfo := t.lines.getD (t.lineIndex o) default

/-- Takes from a byte column the surplus bytes of the wide characters that start before `o`; each
character then counts once.  There is no column if the surplus is larger than the column. -/
def columnOf (o : Nat) : List Span → Nat → Option Nat
  | [], column => some column
  | w :: ws, column =>
    if o ≤ w.start then some column
    else
      let surplus := w.stop - w.start - 1
      if surplus ≤ column then columnOf o ws (column - surplus) else none

/-- The line and column of an offset.  There is none for some offsets inside a character. -/
def lineColumn? (t : LineTable) (o : Nat) : Option LineColumn :=
  let line := t.lineAt o
  (columnOf o line.wide (o - line.start)).map fun column => ⟨t.lineIndex o, column⟩

/-- The line and column of an offset that is a character boundary. -/
def lineColumn (t : LineTable) (o : Nat) : LineColumn := (t.lineColumn? o).getD {}

/-- The offset reached from a byte column by stepping over the surplus bytes of wide characters. -/
def offsetOf : List Span → Nat → Option Nat
  | [], o => if o < offsetLimit then some o else none
  | w :: ws, o =>
    if offsetLimit ≤ o then none
    else if w.start < o then offsetOf ws (o + (w.stop - w.start - 1))
    else offsetOf ws o

/-- The offset of a position; a position past the last line is the end of the text. -/
def offset? (t : LineTable) (p : LineColumn) : Option Nat :=
  match t.lines[p.line]? with
  | none => some t.stop
  | some line => (offsetOf line.wide (line.start + p.column)).map (min · t.stop)

def textRange (t : LineTable) (s : Span) : TextRange :=
  ⟨t.lineColumn s.start, t.lineColumn s.stop⟩

def lineSpan (t : LineTable) (o : Nat) : Span :=
  ⟨(t.lineAt o).start, (t.lines[t.lineIndex o + 1]?).elim t.stop (·.start)⟩

end LineTable

end DualSyntax
