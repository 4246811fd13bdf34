import DualSyntax.Semantics.Names

/-!
# Declarations and scopes

The definition that a declaration makes, and the scopes around a node.
-/

namespace DualSyntax.Semantics

def parameters (f : Forest) (decl : NodeId) : List ParameterDef :=
  (f.children decl .parameters).filterMap fun p =>
    match f.kind p with
    | .parameterDeclaration modifier => do
      let name ← f.nameOf? p
      return ⟨name, p, f.child? p .type, modifier, (f.child? p .defaultExpression).isSome⟩
    | _ => none

/-- Adds a member under its key; members with one key stay together. -/
def addMember (key : String) (n : NodeId) :
    List (String × List NodeId) → List (String × List NodeId)
  | [] => [(key, [n])]
  | m :: ms => if m.1 = key then (m.1, m.2 ++ [n]) :: ms else m :: addMember key n ms

/-- The declarations that a member of a type makes: the declarators of a field, else itself. -/
def memberDeclarations (f : Forest) (n : NodeId) : List NodeId :=
  match f.kind n with
  | .fieldDeclaration => f.children n .declarators
  | .methodDeclaration | .propertyDeclaration | .eventDeclaration | .enumMemberDeclaration
  | .typeDeclaration _ => [n]
  | _ => []

def typeDef? (w : World) (n : NodeId) (variant : TypeVariant) : Option TypeDef := do
  let f := w.forest
  let name ← f.nameOf? n
  let members := f.children n .members
  return {
    name
    origin := .declared n variant
    members := (members.flatMap (memberDeclarations f)).foldl (fun table m =>
      match f.nameOf? m with
      | some name => addMember (w.key name) m table
      | none => table) []
    constructors := members.filter fun m => f.kind m matches .constructorDeclaration
    baseTypes := f.children n .baseTypes }

/-- The definition of a declarator: a field or a local variable.  Its own type goes before that of
the declaration. -/
def declaratorDef? (f : Forest) (n : NodeId) : Option Definition := do
  let parent ← f.parent n
  let type := (f.child? n .type).or (f.child? parent .type)
  let isConst := f.hasModifier parent .modConst
  let initializer := f.child? n .initializer
  let name ← f.nameOf? n
  if f.kind parent matches .fieldDeclaration then
    return .ofField ⟨name, n, type, ← f.parent parent, isConst, false, initializer⟩
  else return .ofVariable ⟨name, n, .localVariable, type, isConst, initializer⟩

/-- The definition of a variable that a node introduces under its name. -/
def variableDef? (f : Forest) (n : NodeId) (kind : VariableKind) (initializer : Option NodeId) :
    Option Definition := do
  let name ← f.nameOf? n
  return .ofVariable ⟨name, n, kind, f.child? n .type, false, initializer⟩

/-- The definition that a declaration other than a namespace makes. -/
def declared? (w : World) (n : NodeId) : Option Definition :=
  let f := w.forest
  match f.kind n with
  | .typeDeclaration variant => (typeDef? w n variant).map .ofType
  | .variableDeclarator => declaratorDef? f n
  | .enumMemberDeclaration => do
    let name ← f.nameOf? n
    return .ofField ⟨name, n, none, ← f.parent n, true, true, f.child? n .initializer⟩
  | .propertyDeclaration => do
    let name ← f.nameOf? n
    return .ofProperty ⟨name, n, f.child? n .type, ← f.parent n, (f.child? n .getter).isSome,
      (f.child? n .setter).isSome⟩
  | .methodDeclaration => do
    let name ← f.nameOf? n
    return .ofMethod ⟨name, n, f.child? n .type, parameters f n, ← f.parent n, false⟩
  | .constructorDeclaration => do
    let owner ← f.parent n
    let name ← (f.nameOf? owner).or (f.nameOf? n)
    return .ofMethod ⟨name, n, none, parameters f n, owner, true⟩
  | .eventDeclaration => do
    let name ← f.nameOf? n
    return .ofEvent ⟨name, n, f.child? n .type, ← f.parent n⟩
  | .parameterDeclaration _ => variableDef? f n .parameter (f.child? n .defaultExpression)
  | .accessor .set => do
    return .ofVariable ⟨"value", n, .setterValue, f.child? (← f.parent n) .type, false, none⟩
  | .foreachStatement => variableDef? f n .iteration (f.child? n .expression)
  | .forNextStatement => variableDef? f n .counter (f.child? n .initializer)
  | .catchClause => variableDef? f n .caught none
  | _ => none

def definitionOf (n : NodeId) : Ask (Option Definition) := do
  let w ← read
  match w.forest.kind n with
  | .namespaceDeclaration =>
    match namespaceName? w.forest n with
    | some name => return (← namespaceNamed? (rootOf w.forest n) name).map .ofNamespace
    | none => return none
  | _ => return declared? w n

def scopeOf (n : NodeId) : Ask (Option Scope) := do
  let f ← forest
  match f.kind n with
  | .typeDeclaration _ => return some (.type n)
  | .namespaceDeclaration =>
    return ((← definitionOf n).bind Definition.namespace?).map .ofNamespace
  | .methodDeclaration | .constructorDeclaration | .accessor _ => return some (.method n)
  | .blockStatement | .switchSection =>
    return some (.block n ((f.children n .statements).length - 1))
  | .forStatement | .foreachStatement | .forNextStatement | .usingStatement | .fixedStatement
  | .catchClause => return some (.statement n)
  | .compilationUnit => return some (.compilationUnit n)
  | _ => return none

/-- The scopes that a node opens for one of its children, innermost first.  The collection of an
iteration does not see its variable. -/
def scopesAround (child n : NodeId) : Ask (List Scope) := do
  let f ← forest
  match f.kind n with
  | .blockStatement | .switchSection =>
    return ((f.children n .statements).findIdx? (· == child)).toList.map (.block n ·)
  | .foreachStatement =>
    return if f.titleInParent? child == some .expression then [] else [.statement n]
  | .forStatement | .forNextStatement | .usingStatement | .fixedStatement | .catchClause =>
    return [.statement n]
  | .methodDeclaration | .constructorDeclaration | .accessor _ => return [.method n]
  | .typeDeclaration _ => return [.type n]
  | .namespaceDeclaration => return (← namespaceScopes n) ++ [.imports n]
  | .compilationUnit => return [.compilationUnit n, .imports n]
  | _ => return []

/-- The scopes of a chain of ancestors, the first of which is the parent of `child`. -/
def scopesAlong (child : NodeId) : List NodeId → Ask (List Scope)
  | [] => return []
  | n :: ns => do
    let inner ← scopesAround child n
    return inner ++ (← scopesAlong n ns)

/-- The scopes that are visible at a node, innermost first. -/
def scopesAt (n : NodeId) : Ask (List Scope) := do
  scopesAlong n ((← forest).ancestors n)

end DualSyntax.Semantics
