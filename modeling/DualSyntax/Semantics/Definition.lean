import DualSyntax.Forest.Basic

/-!
# Definitions

What a name stands for: a namespace, a type, a member of a type or a variable.  Definitions are read
off declarations.  They name the nodes of their types instead of holding types, because a type can
be known only in the scopes around its node.
-/

namespace DualSyntax

inductive TypeRef where
  | known (t : KnownType)
  /-- The type that a type declaration declares. -/
  | declared (decl : NodeId)
  | array (element : TypeRef) (rank : Nat)
  /-- The type of the null literal. -/
  | null
deriving DecidableEq, Repr, Inhabited

structure NamespaceDef where
  /-- The last part of the full name. -/
  name : String
  /-- The dotted name; empty for the global namespace. -/
  fullName : String
  /-- The root of the tree that declares it. -/
  root : NodeId
  /-- The declarations whose members belong to it. -/
  decls : List NodeId
deriving DecidableEq, Repr, Inhabited

inductive TypeOrigin where
  | builtin (t : KnownType)
  | declared (decl : NodeId) (variant : TypeVariant)
deriving DecidableEq, Repr, Inhabited

structure TypeDef where
  name : String
  origin : TypeOrigin
  /-- The member declarations under the keys of their names, in order of first declaration. -/
  members : List (String × List NodeId) := []
  constructors : List NodeId := []
  /-- The type nodes of the base list. -/
  baseTypes : List NodeId := []
deriving DecidableEq, Repr, Inhabited

structure FieldDef where
  name : String
  decl : NodeId
  type : Option NodeId
  owner : NodeId
  isConst : Bool
  isEnumMember : Bool
  initializer : Option NodeId
deriving DecidableEq, Repr, Inhabited

structure PropertyDef where
  name : String
  decl : NodeId
  type : Option NodeId
  owner : NodeId
  readable : Bool
  writable : Bool
deriving DecidableEq, Repr, Inhabited

structure ParameterDef where
  name : String
  decl : NodeId
  type : Option NodeId
  modifier : ParameterModifier
  /-- Whether it has a default value. -/
  isOptional : Bool
deriving DecidableEq, Repr, Inhabited

structure MethodDef where
  name : String
  decl : NodeId
  /-- Missing for methods without a result and for constructors. -/
  returnType : Option NodeId
  parameters : List ParameterDef
  owner : NodeId
  isConstructor : Bool
deriving DecidableEq, Repr, Inhabited

structure EventDef where
  name : String
  decl : NodeId
  type : Option NodeId
  owner : NodeId
deriving DecidableEq, Repr, Inhabited

inductive VariableKind where
  | localVariable | parameter | iteration | counter | caught | setterValue
deriving DecidableEq, Repr, Inhabited

def VariableKind.name : VariableKind → String
  | localVariable => "Local"
  | parameter => "Parameter"
  | iteration => "Iteration"
  | counter => "Counter"
  | caught => "Catch"
  | setterValue => "SetterValue"

structure VariableDef where
  name : String
  /-- The declarator, the parameter or the statement that introduces it. -/
  decl : NodeId
  kind : VariableKind
  type : Option NodeId
  isConst : Bool
  /-- The first value; for the variable of an iteration, the collection. -/
  initializer : Option NodeId
deriving DecidableEq, Repr, Inhabited

/-- What a name stands for. -/
inductive Definition where
  | ofNamespace (d : NamespaceDef)
  | ofType (d : TypeDef)
  | ofField (d : FieldDef)
  | ofProperty (d : PropertyDef)
  | ofMethod (d : MethodDef)
  | ofEvent (d : EventDef)
  | ofVariable (d : VariableDef)
deriving DecidableEq, Repr, Inhabited

/-- The numbers of arguments that a method takes: at least the first, at most the second if there
is one. -/
def MethodDef.arity (m : MethodDef) : Nat × Option Nat :=
  (m.parameters.countP fun p => !p.isOptional && p.modifier != .params,
    if m.parameters.any (·.modifier == .params) then none else some m.parameters.length)

namespace Definition

def name : Definition → String
  | ofNamespace d => d.name
  | ofType d => d.name
  | ofField d => d.name
  | ofProperty d => d.name
  | ofMethod d => d.name
  | ofEvent d => d.name
  | ofVariable d => d.name

/-- The declaration; namespaces and built-in types have none. -/
def decl? : Definition → Option NodeId
  | ofNamespace _ => none
  | ofType d =>
    match d.origin with
    | .builtin _ => none
    | .declared decl _ => some decl
  | ofField d => some d.decl
  | ofProperty d => some d.decl
  | ofMethod d => some d.decl
  | ofEvent d => some d.decl
  | ofVariable d => some d.decl

def category : Definition → String
  | ofNamespace _ => "namespace"
  | ofType _ => "type"
  | ofField _ => "field"
  | ofProperty _ => "property"
  | ofMethod d => if d.isConstructor then "constructor" else "method"
  | ofEvent _ => "event"
  | ofVariable _ => "variable"

/-- Whether a definition may stand where a type is asked for. -/
def isTypeLike : Definition → Bool
  | ofNamespace _ | ofType _ => true
  | _ => false

def method? : Definition → Option MethodDef
  | ofMethod d => some d
  | _ => none

def type? : Definition → Option TypeDef
  | ofType d => some d
  | _ => none

def namespace? : Definition → Option NamespaceDef
  | ofNamespace d => some d
  | _ => none

def builtin (t : KnownType) : Definition := ofType { name := t.name, origin := .builtin t }

end Definition

end DualSyntax
