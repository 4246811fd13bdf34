import DualSyntax.Semantics.Declarations

/-!
# Lookup

What a name stands for in a scope.  The members of a type include those of its base types, and to
know these the nodes of the base list have to be resolved; so the functions here take the answers
to deeper questions as an argument.
-/

namespace DualSyntax.Semantics

/-- The answers to deeper questions: what a type node means in scopes given innermost first, what
an expression means there, and the constant value of a meaning. -/
structure Answers where
  type : NodeId → List Scope → Ask Meaning
  expression : NodeId → List Scope → Ask Meaning
  constant : Meaning → Ask (Option ConstantValue)

def builtinNamed? (w : World) (name : String) : Option Definition :=
  (KnownType.all.find? fun t => w.sameName t.name name).map .builtin

/-- The built-in type with a keyword of either language. -/
def builtinWithKeyword? (w : World) (word : String) : Option Definition :=
  (KnownType.all.find? fun t =>
    t.csharpWord == word || w.sameName t.visualBasicWord word).map .builtin

def isNamed (w : World) (name : String) (n : NodeId) : Bool :=
  (w.forest.nameOf? n).any fun s => w.sameName s name

/-! ## Variables -/

def firstNamed (name : String) (nodes : List NodeId) : Ask (Option Definition) := do
  match nodes.find? (isNamed (← read) name) with
  | some n => definitionOf n
  | none => return none

def declaredVariable (name : String) (statement : NodeId) : Ask (Option Definition) := do
  firstNamed name ((← forest).children statement .declarators)

/-- The variable with a name that the first declaration among statements to declare it declares. -/
def variableAmong (name : String) (statements : List NodeId) : Ask (Option Definition) := do
  let f ← forest
  (statements.filter fun s => f.kind s matches .variableDeclarationStatement).findSomeM?
    (declaredVariable name)

/-- The variable with a name that the first statements of a block declare. -/
def blockVariable (block : NodeId) (upto : Nat) (name : String) : Ask (Option Definition) := do
  variableAmong name (((← forest).children block .statements).take (upto + 1))

/-- The variable with a name that the header of a statement declares. -/
def statementVariable (n : NodeId) (name : String) : Ask (Option Definition) := do
  let f ← forest
  match f.kind n with
  | .forStatement => variableAmong name (f.children n .initializers)
  | .usingStatement => variableAmong name (f.child? n .resourceAcquisition).toList
  | .fixedStatement => declaredVariable name n
  | .foreachStatement | .forNextStatement | .catchClause => firstNamed name [n]
  | _ => return none

/-- The parameter with a name; a setter has a parameter without declaring it. -/
def parameterNamed (n : NodeId) (name : String) : Ask (Option Definition) := do
  let w ← read
  if w.forest.kind n matches .accessor .set && w.sameName name "value" then definitionOf n
  else firstNamed name (w.forest.children n .parameters)

/-! ## Members of types -/

/-- The members with a name that a type declares itself; a declaration that defines no type, as one
without a name, has none. -/
def ownMembers (n : NodeId) (name : String) : Ask (List Definition) := do
  let w ← read
  match (← definitionOf n).bind Definition.type? with
  | none => return []
  | some type =>
    let ids := ((type.members.find? (·.1 == w.key name)).map (·.2)).getD []
    return (← ids.mapM definitionOf).reduceOption

section

variable (answers : Answers)

/-- The type that a type node denotes at its place. -/
def typeAt (n : NodeId) : Ask (Option TypeRef) := do
  return (← answers.type n (← scopesAt n)).type?

def typeAt? : Option NodeId → Ask (Option TypeRef)
  | some n => typeAt answers n
  | none => return none

/-- The declared types in the base list of a type. -/
def baseTypes (n : NodeId) : Ask (List NodeId) := do
  match (← definitionOf n).bind Definition.type? with
  | none => return []
  | some type =>
    let bases ← guarded .bases n do
      return some (← type.baseTypes.mapM (typeAt answers))
    return (bases.getD []).filterMap fun
      | some (.declared decl) => some decl
      | _ => none

/-- The members with a name of the first type in a queue that declares any; the base types of a
type that declares none are added to the queue, and no type is looked at twice. -/
def firstMembers (name : String) : Nat → List NodeId → List NodeId → Ask (List Definition)
  | 0, _, _ => failure
  | _ + 1, _, [] => return []
  | fuel + 1, seen, n :: queue => do
    if seen.contains n then firstMembers name fuel seen queue
    else
      let found ← ownMembers n name
      if found.isEmpty then
        firstMembers name fuel (n :: seen) (queue ++ (← baseTypes answers n))
      else return found

/-- The members of a type with a name: its own, else those of its base types, level by level. -/
def typeMembers (n : NodeId) (name : String) : Ask (List Definition) := do
  firstMembers answers name (2 * (← forest).size + 2) [] [n]

end

/-! ## Namespaces -/

def typeDeclarations (f : Forest) (d : NamespaceDef) : List NodeId :=
  d.decls.flatMap fun decl =>
    (f.children decl .members).filter fun m => f.kind m matches .typeDeclaration _

/-- What a name stands for in a namespace: types, else a namespace, else members of modules. -/
def namespaceMembers (d : NamespaceDef) (name : String) : Ask (List Definition) := do
  let w ← read
  let types := typeDeclarations w.forest d
  let found ← (types.filter (isNamed w name)).mapM definitionOf
  let builtin := if w.sameName d.fullName systemName then builtinNamed? w name else none
  let found := found.reduceOption ++ builtin.toList
  if !found.isEmpty then return found
  else
    let inner := if d.fullName.isEmpty then name else d.fullName ++ "." ++ name
    match ← namespaceNamed? d.root inner with
    | some inner => return [.ofNamespace inner]
    | none =>
      let modules := types.filter fun m => w.forest.kind m matches .typeDeclaration .moduleType
      return (← modules.mapM fun m => ownMembers m name).flatten

/-- What a name stands for in the namespaces that a list of members imports; namespaces in them are
not imported. -/
def importedMembers (root : NodeId) (name : String) : List NodeId → Ask (List Definition)
  | [] => return []
  | m :: ms => do
    let f ← forest
    let imported := if f.kind m matches .usingDeclaration then
        (f.child? m .imported).bind (dottedName? f)
      else none
    let found ← match imported with
      | none => pure []
      | some imported =>
        match ← namespaceNamed? root imported with
        | none => pure []
        | some d =>
          pure ((← namespaceMembers d name).filter fun d => !(d matches .ofNamespace _))
    return found ++ (← importedMembers root name ms)

/-- What a name stands for in the global namespace; the keywords of the built-in types come last. -/
def globalMembers (n : NodeId) (name : String) : Ask (List Definition) := do
  let found ← match ← namespaceNamed? n "" with
    | some global => namespaceMembers global name
    | none => pure []
  if !found.isEmpty then return found
  else return (builtinWithKeyword? (← read) name).toList

/-! ## Scopes -/

variable (answers : Answers)

def lookupIn (name : String) : Scope → Ask (List Definition)
  | .block n upto => return (← blockVariable n upto name).toList
  | .statement n => return (← statementVariable n name).toList
  | .method n => return (← parameterNamed n name).toList
  | .type n => typeMembers answers n name
  | .ofNamespace d => namespaceMembers d name
  | .imports n => do
    let f ← forest
    importedMembers (rootOf f n) name (f.children n .members)
  | .compilationUnit n => globalMembers n name

/-- What a name stands for in the first scope that has something acceptable to say. -/
def lookup (name : String) (accept : Definition → Bool) : List Scope → Ask (List Definition)
  | [] => return []
  | s :: scopes => do
    let found := (← lookupIn answers name s).filter accept
    if found.isEmpty then lookup name accept scopes else return found

end DualSyntax.Semantics
