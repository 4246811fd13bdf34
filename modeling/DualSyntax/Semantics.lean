import DualSyntax.Semantics.Resolution

/-!
# Questions about a tree

The questions that can be asked about the trees of a forest, each answered in full.
-/

namespace DualSyntax

/-- The answer to a question about a forest of which nothing was asked before. -/
def Forest.ask? {α : Type} (f : Forest) (caseSensitive : Bool) (question : Ask α) : Option α :=
  (question.run { forest := f, caseSensitive }).run' {}

namespace Semantics

/-- The meaning of an expression or a type node at its place. -/
def meaningOf (n : NodeId) : Ask Meaning := do meaningAt (answersFor (← forest)) n

/-- The meaning of an expression or a type node in scopes given innermost first. -/
def meaningIn (scopes : List Scope) (n : NodeId) : Ask Meaning := do
  (answersFor (← forest)).expression n scopes

def typeMeaningIn (scopes : List Scope) (n : NodeId) : Ask Meaning := do
  (answersFor (← forest)).type n scopes

def typeOfNode (n : NodeId) : Ask (Option TypeRef) := do typeAt (answersFor (← forest)) n

def typeOfDefinition (d : Definition) : Ask (Option TypeRef) := do
  typeOf (answersFor (← forest)) d

def constantValue (m : Meaning) : Ask (Option ConstantValue) := do
  (answersFor (← forest)).constant m

def findIn (scope : Scope) (name : String) : Ask (List Definition) := do
  lookupIn (answersFor (← forest)) name scope

/-- What a name stands for in scopes given innermost first, as far as it is acceptable. -/
def find (scopes : List Scope) (accept : Definition → Bool) (name : String) :
    Ask (List Definition) := do
  lookup (answersFor (← forest)) name accept scopes

end Semantics

end DualSyntax
