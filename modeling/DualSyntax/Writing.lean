import DualSyntax.CSharp.Writer
import DualSyntax.VisualBasic.Writer

/-!
# Writing

From a tree of nodes to source text in either language.
-/

namespace DualSyntax

namespace Writing

/-- Writes a node of a language to a bounded depth. -/
def nodeUpTo : Language → Nat → NodeId → Written
  | .csharp => CSharp.writeUpTo
  | .visualBasic => VisualBasic.writeUpTo

/-- The steps that write a tree with the comments in front of it.  A node is written inside itself
at most once, in a header. -/
def steps (l : Language) (f : Forest) (root : NodeId) (style : Style) :
    Except WriteError (List OutputStep) :=
  (leadingTrivia root ++ nodeUpTo l (2 * f.size + 2) root).run ⟨l, f, style, false⟩

end Writing

def write (l : Language) (f : Forest) (root : NodeId) (style : Style) :
    Except WriteError Output := do
  match Output.empty? style with
  | none => throw .tooWide
  | some empty =>
    let steps ← Writing.steps l f root style
    match empty.run? steps with
    | some o => return o
    | none => throw .tooDeep

end DualSyntax
