import DualSyntax.Json.Skip
import DualSyntax.Language.Basic

/-!
# Styles

A style says how far lines are indented and where opening braces go.  It is read from a JSON value:
an object with any of the fields, or an array of the first fields in order.
-/

namespace DualSyntax

inductive BracePlace where
  /-- At the end of the line that opens the construct. -/
  | endOfLine
  /-- On a line of its own. -/
  | nextLine
deriving DecidableEq, Repr, Inhabited

structure Style where
  indentSize : Nat := 4
  useTabs : Bool := false
  namespaceBrace : BracePlace := .nextLine
  typeBrace : BracePlace := .nextLine
  methodBrace : BracePlace := .nextLine
  constructorBrace : BracePlace := .nextLine
  propertyBrace : BracePlace := .nextLine
  accessorBrace : BracePlace := .nextLine
  statementBrace : BracePlace := .nextLine
  /-- Whether a property with plain accessors stands on one line. -/
  compactAutoProperties : Bool := true
deriving DecidableEq, Repr, Inhabited

namespace Style

/-- The number of bytes from which on a text is too long for any memory. -/
def textLimit : Nat := Nat.pow 2 63

/-- One level of indentation, unless that is too long. -/
def indentUnit? (s : Style) : Option (List Char) :=
  if s.useTabs then some ['\t']
  else if s.indentSize < textLimit then some (List.replicate s.indentSize ' ')
  else none

def bracePlaceOfName? : String → Option BracePlace
  | "end_of_line" => some .endOfLine
  | "next_line" => some .nextLine
  | _ => none

/-- A place: its name, or an object that has the name as its only member, with nothing in it. -/
def bracePlace? : Json → Option BracePlace
  | .string s => bracePlaceOfName? s
  | .object [(s, .null)] => bracePlaceOfName? s
  | _ => none

/-- The fields in order, each with the way to read and set it. -/
def fields : List (String × (Style → Json → Option Style)) :=
  [("indent_size", fun s j => j.asNat?.map fun n => { s with indentSize := n }),
   ("use_tabs", fun s j => j.asBool?.map fun b => { s with useTabs := b }),
   ("namespace_brace", fun s j => (bracePlace? j).map fun p => { s with namespaceBrace := p }),
   ("type_brace", fun s j => (bracePlace? j).map fun p => { s with typeBrace := p }),
   ("method_brace", fun s j => (bracePlace? j).map fun p => { s with methodBrace := p }),
   ("constructor_brace", fun s j => (bracePlace? j).map fun p => { s with constructorBrace := p }),
   ("property_brace", fun s j => (bracePlace? j).map fun p => { s with propertyBrace := p }),
   ("accessor_brace", fun s j => (bracePlace? j).map fun p => { s with accessorBrace := p }),
   ("statement_brace", fun s j => (bracePlace? j).map fun p => { s with statementBrace := p }),
   ("compact_auto_properties", fun s j =>
      j.asBool?.map fun b => { s with compactAutoProperties := b })]

/-- The style that a JSON value describes; other fields are ignored, missing ones have their
defaults, and of several fields with one name the last counts. -/
def ofJson? : Json → Option Style
  | .array items =>
    if fields.length < items.length then none
    else (items.zip fields).foldlM (fun s (j, field) => field.2 s j) {}
  | .object members =>
    fields.foldlM (fun s field =>
      match (Json.object members).get? field.1 with
      | some j => field.2 s j
      | none => some s) {}
  | _ => none

def isField (name : String) : Bool := fields.any (·.1 == name)

/-- The style that a JSON text describes.  Here a field may be given only once. -/
def ofText? (s : String) : Option Style := do
  let j ← Json.parseWanted? isField s
  match j with
  | .object members =>
    let known := members.map (·.1)
    if known.eraseDups.length == known.length then ofJson? j else none
  | j => ofJson? j

end Style

end DualSyntax
