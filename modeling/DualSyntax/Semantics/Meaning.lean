import DualSyntax.Semantics.Constant

/-!
# Scopes and meanings

A scope is a region that declares names.  A meaning is what an expression or a type node comes to;
there is always exactly one, an error if nothing better can be said.
-/

namespace DualSyntax

inductive Scope where
  /-- The variables that the statements of a block declare, up to and including the one at an
  index. -/
  | block (n : NodeId) (upto : Nat)
  /-- The variables in the header of a statement. -/
  | statement (n : NodeId)
  /-- The parameters of a method, a constructor or an accessor. -/
  | method (n : NodeId)
  /-- The members of a type and of its base types. -/
  | type (n : NodeId)
  /-- The types and namespaces in a namespace. -/
  | ofNamespace (d : NamespaceDef)
  /-- What a compilation unit or a namespace declaration imports. -/
  | imports (n : NodeId)
  /-- The global namespace of a compilation unit, and the keywords of the built-in types. -/
  | compilationUnit (n : NodeId)
deriving DecidableEq, Repr, Inhabited

namespace Scope

/-- The innermost type around a place, from the scopes there, innermost first. -/
def enclosingType? (scopes : List Scope) : Option NodeId :=
  scopes.findSome? fun
    | type n => some n
    | _ => none

end Scope

/-- What an expression or a type node comes to. -/
inductive Meaning where
  /-- A name that nothing declares. -/
  | unknown (name : String)
  /-- What a name stands for; an overloaded method stands for several methods.  The type is that
  of the value, or the type itself. -/
  | member (candidates : List Definition) (type : Option TypeRef)
  | constant (value : ConstantValue) (type : Option TypeRef)
  /-- A call; a type without a constructor is created without a method. -/
  | call (method : Option Definition) (arguments : List Meaning) (type : Option TypeRef)
  | this (type : Option TypeRef)
  | base (type : Option TypeRef)
  | conversion (type : TypeRef) (operand : Meaning)
  | error (message : String) (candidates : List Definition)
deriving Inhabited

namespace Meaning

/-- An error that names no candidates. -/
def failed (message : String) : Meaning := error message []

def type? : Meaning → Option TypeRef
  | member _ type | constant _ type | call _ _ type | this type | base type => type
  | conversion type _ => some type
  | unknown _ | error _ _ => none

def definition? : Meaning → Option Definition
  | member candidates _ => candidates.head?
  | call method _ _ => method
  | _ => none

def isError : Meaning → Bool
  | unknown _ | error _ _ => true
  | _ => false

def scopeOfType? : Option TypeRef → Option Scope
  | some (.declared decl) => some (.type decl)
  | _ => none

/-- The scope of what may follow after a dot. -/
def scope? : Meaning → Option Scope
  | member candidates type =>
    match candidates.head? with
    | none => none
    | some (.ofNamespace d) => some (.ofNamespace d)
    | some (.ofMethod _) => none
    | some _ => scopeOfType? type
  | m => scopeOfType? m.type?

end Meaning

end DualSyntax
