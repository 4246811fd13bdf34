import DualSyntax.Diagnostic.Syntactic
import DualSyntax.Forest.Edit
import DualSyntax.Grammar.RawTree
import DualSyntax.Language.Words

/-!
# Drafts

A raw tree becomes a tree of nodes step by step.  The draft holds the forest made so far and the
diagnostics that came up; an error ends the work.
-/

namespace DualSyntax

/-- Why a raw tree could not be made into a tree of nodes. -/
inductive LowerError where
  /-- The children of a match are not what its shape expects. -/
  | unexpectedShape (form expected : String)
  /-- A match without a shape does not have exactly one child. -/
  | noLowering (form : String)
  /-- A token does not denote what its place asks for. -/
  | unconvertible (expected text : String)
  /-- A node would have become its own ancestor. -/
  | cyclicLink
  /-- The raw tree is deeper than its height. -/
  | tooDeep
deriving DecidableEq, Repr, Inhabited

namespace LowerError

def message : LowerError → String
  | unexpectedShape form expected => "`" ++ form ++ "`: expected " ++ expected
  | noLowering form => "`" ++ form ++ "` has no lowering and no single child to forward to"
  | unconvertible expected text => "`" ++ text ++ "` can't be converted into " ++ expected
  | cyclicLink => "attaching a node under itself"
  | tooDeep => "the tree is too deep"

end LowerError

structure Source where
  language : Language
  stream : TokenStream
  lines : LineTable
deriving Inhabited

/-- The tree under construction. -/
structure Draft where
  forest : Forest := {}
  /-- The diagnostics so far, in the order in which they came up. -/
  diagnostics : Array Diagnostic := #[]
deriving Inhabited

/-- A step of the construction. -/
abbrev Lower := ReaderT Source (StateT Draft (Except LowerError))

namespace Lower

/-- Notes a diagnostic at a span. -/
def report (span : Span) (issue : Issue) : Lower Unit := do
  let source ← read
  let d : Diagnostic := ⟨source.language, issue, span, source.lines.lineColumn span.start, none⟩
  modify fun draft => { draft with diagnostics := draft.diagnostics.push d }

def inspect {α : Type} (look : Forest → α) : Lower α := return look (← get).forest

def allocate (kind : NodeKind) (span : Span) : Lower NodeId := do
  let range := (← read).lines.textRange span
  modifyGet fun draft =>
    let (n, forest) := draft.forest.allocate kind range
    (n, { draft with forest })

/-- Changes the forest; a refused edit is an error. -/
def edit (change : Forest → Option Forest) : Lower Unit := fun _ ⟨forest, diagnostics⟩ =>
  match change forest with
  | some forest => .ok ((), ⟨forest, diagnostics⟩)
  | none => .error .cyclicLink

def set (owner : NodeId) (t : Title) (c : NodeId) : Lower Unit :=
  edit fun forest => (forest.setChild? owner t c).map (·.2)

def push (owner : NodeId) (t : Title) (c : NodeId) : Lower Unit :=
  edit fun forest => forest.appendChild? owner t c

def detach (n : NodeId) : Lower Unit :=
  modify fun draft => { draft with forest := draft.forest.detach n }

def token (t : Token) : Lower NodeId := allocate (.token t.kind t.text) t.span

/-- The node of a name, without the marks that escape it. -/
def identifier (t : Token) : Lower NodeId := do
  allocate (.identifier ((← read).language.unescape t.text)) t.span

def setToken (owner : NodeId) (t : Title) (tk : Token) : Lower Unit := do
  set owner t (← token tk)

def literalValue? (t : Token) : Option LiteralValue :=
  match t.kind with
  | .kwNull | .kwNothing => some .null
  | _ => t.value

def literal (t : Token) : Lower NodeId := do
  match literalValue? t with
  | some value =>
    allocate (.primitiveExpression ⟨value, some ((← read).language, t.text)⟩) t.span
  | none => throw (.unconvertible "literal" t.text)

def modifier (t : Token) : Lower NodeId := do
  match (← read).language.modifier? t.text with
  | some m => allocate (.modifier m) t.span
  | none => throw (.unconvertible "modifier" t.text)

end Lower

end DualSyntax
