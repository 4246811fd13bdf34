import DualSyntax.CSharp.Shapes
import DualSyntax.Grammar.Packrat
import DualSyntax.Lexing.Tokenize
import DualSyntax.Lowering.Shapes
import DualSyntax.VisualBasic.Shapes

/-!
# Parsing

From source text to a tree of nodes: the text is cut into tokens, the tokens are matched by the
grammar of the language, and the match is lowered.  Warnings and messages come with the tree; an
error takes its place.
-/

namespace DualSyntax

inductive Fragment where
  | compilationUnit | statement | expression | typeMember
deriving DecidableEq, Repr, Inhabited

namespace Language

abbrev Form : Language → Type
  | csharp => CSharp.Form
  | visualBasic => VisualBasic.Form

instance : (l : Language) → BEq l.Form
  | csharp => inferInstanceAs (BEq CSharp.Form)
  | visualBasic => inferInstanceAs (BEq VisualBasic.Form)

instance : (l : Language) → LawfulBEq l.Form
  | csharp => inferInstanceAs (LawfulBEq CSharp.Form)
  | visualBasic => inferInstanceAs (LawfulBEq VisualBasic.Form)

def grammar : (l : Language) → Grammar l.Form
  | csharp => CSharp.grammar
  | visualBasic => VisualBasic.grammar

def root : (l : Language) → Fragment → l.Form
  | csharp, .compilationUnit => CSharp.Form.compilationUnit
  | csharp, .statement => CSharp.Form.statement
  | csharp, .expression => CSharp.Form.expression
  | csharp, .typeMember => CSharp.Form.typeMember
  | visualBasic, .compilationUnit => VisualBasic.Form.compilationUnit
  | visualBasic, .statement => VisualBasic.Form.statement
  | visualBasic, .expression => VisualBasic.Form.expression
  | visualBasic, .typeMember => VisualBasic.Form.typeMember

end Language

inductive ParseError where
  | lexical (fault : LexFault)
  /-- The tokens do not match, or lowering came upon an error. -/
  | rejected (diagnostics : List Diagnostic)
  | lowering (error : LowerError)
  /-- The matcher ran out of fuel. -/
  | exhausted
deriving Repr, Inhabited

namespace ParseError

def message : ParseError → String
  | lexical fault => fault.message
  | rejected diagnostics => diagnostics.head?.elim "syntax error" Diagnostic.message
  | lowering error => error.message
  | exhausted => "the text is too long"

def diagnostics : ParseError → List Diagnostic
  | rejected diagnostics => diagnostics
  | _ => []

end ParseError

def Issue.ofUnwanted : TokenKind → Issue
  | .eof => .unexpectedEnd
  | .error => .invalidToken
  | _ => .unexpectedToken

def Packrat.Failure.diagnostic (f : Packrat.Failure) (source : Source) : Diagnostic :=
  match source.stream.get? f.position with
  | some t =>
    ⟨source.language, .ofUnwanted t.kind, t.span, source.lines.lineColumn t.span.start,
      some (f.expected, t.kind)⟩
  | none => ⟨source.language, .unexpectedEnd, .emptyAt 0, {}, none⟩

/-- Cuts a source text into tokens and lines. -/
def Source.ofText (l : Language) (src : List Char) : Except ParseError Source :=
  match tokenize l src with
  | .ok stream => .ok ⟨l, stream, .ofText src⟩
  | .error fault => .error (.lexical fault)

def Source.matchBy {δ : Type} [BEq δ] (source : Source) (g : Grammar δ) (root : δ) :
    Except ParseError (RawTree δ) :=
  match Packrat.parse g root source.stream with
  | .parsed tree => .ok tree
  | .failed failure => .error (.rejected [failure.diagnostic source])
  | .exhausted => .error .exhausted

/-- Matches a text as a fragment, without lowering it. -/
def parseRaw (l : Language) (fragment : Fragment) (src : List Char) :
    Except ParseError (Source × RawTree l.Form) := do
  let source ← Source.ofText l src
  let tree ← source.matchBy l.grammar (l.root fragment)
  return (source, tree)

structure Parsed where
  forest : Forest
  root : NodeId
  /-- Warnings and messages. -/
  diagnostics : List Diagnostic
deriving Inhabited

def parse (l : Language) (fragment : Fragment) (src : List Char) : Except ParseError Parsed := do
  let (source, raw) ← parseRaw l fragment src
  match raw.lower l.grammar source with
  | .error e => throw (.lowering e)
  | .ok (root, draft) =>
    let diagnostics := draft.diagnostics.toList
    if diagnostics.any Diagnostic.isError then throw (.rejected diagnostics)
    else return ⟨draft.forest, root, diagnostics⟩

end DualSyntax
