import DualSyntax.CSharp.Statements
import DualSyntax.Forest.Agree

/-!
# Writing C#: declarations

Modules are static classes with static members, and variables that are declared together but have
different types are declared one by one.
-/

namespace DualSyntax.CSharp

open Writing

inductive DeclaredType where
  /-- One type for all of them. -/
  | shared (type : NodeId)
  /-- A word in place of a type. -/
  | word (word : String)
  /-- The variables have different types. -/
  | various
deriving DecidableEq, Repr, Inhabited

/-- The type of the variables of a declaration.  Without any type, local variables that all have
initializers are left to inference. -/
def declaredType (f : Forest) (n : NodeId) (isField : Bool) : DeclaredType :=
  match f.child? n .type with
  | some type => .shared type
  | none =>
    let declared := f.children n .declarators
    let types := declared.map fun v => f.child? v .type
    if types.all Option.isNone then
      let allInitialized := declared.all fun v => (f.child? v .initializer).isSome
      .word (if !isField && allInitialized then "var" else "object")
    else
      match types with
      | some first :: rest =>
        if rest.all fun t => t.any fun t => f.agree first f t then .shared first else .various
      | _ => .various

def inModule (f : Forest) (n : NodeId) : Bool :=
  (f.parent n).any fun p => f.kind p matches .typeDeclaration .moduleType

variable (node : NodeId → Written)

/-- The modifiers of a declaration, each followed by a space.  The accessors of a property show
whether it can be read or written, and members of a module are static. -/
def writeModifiers (n : NodeId) : Written := do
  let f ← forest
  let isProperty := f.kind n matches .propertyDeclaration
  let isType := f.kind n matches .typeDeclaration _
  let skipped (m : NodeId) : Bool :=
    isProperty &&
      (f.kind m matches .modifier .modReadonly || f.kind m matches .modifier .modWriteOnly)
  let impliedStatic :=
    inModule f n && !isType && !f.hasModifier n .modStatic && !f.hasModifier n .modConst
  inOrder (((f.children n .modifiers).filter (!skipped ·)).map fun m => node m ++ space) ++
    onlyIf impliedStatic (put "static" ++ space)

def writeDeclaration (n : NodeId) (isField : Bool) : Written := do
  let f ← forest
  let declared := f.children n .declarators
  match declaredType f n isField with
  | .shared type =>
    writeModifiers node n ++ node type ++ space ++ commaSeparated node declared ++ endStatement
  | .word word =>
    writeModifiers node n ++ put word ++ space ++ commaSeparated node declared ++ endStatement
  | .various =>
    if (← read).inHeader then unsupported n
    else
      let type (v : NodeId) : Written :=
        match f.child? v .type with
        | some type => node type
        | none =>
          put (if !isField && (f.child? v .initializer).isSome then "var" else "object")
      separatedBy newLine <| declared.map fun v =>
        writeModifiers node n ++ type v ++ space ++ node v ++ endStatement

def writeDeclarator (n : NodeId) : Written := do
  let name ← required n .identifier
  node name ++
    match (← forest).child? n .initializer with
    | some value => put " = " ++ writeOperand node value assignmentLevel
    | none => nothing

def writeEnumMembers : List NodeId → Written
  | [] => nothing
  | [m] => leadingTrivia m ++ node m ++ newLine
  | m :: ms => leadingTrivia m ++ node m ++ put "," ++ newLine ++ writeEnumMembers ms

def writeTypeDeclaration (n : NodeId) (variant : TypeVariant) : Written := do
  let page ← read
  let f := page.forest
  let name ← required n .identifier
  let bases := f.children n .baseTypes
  let members := f.children n .members
  let keyword : Written := match variant with
    | .classType => put "class"
    | .structType => put "struct"
    | .interfaceType => put "interface"
    | .enumType => put "enum"
    | .moduleType =>
      onlyIf (!f.hasModifier n .modStatic) (put "static" ++ space) ++ put "class"
  writeModifiers node n ++ keyword ++ space ++ node name ++
    onlyIf (!bases.isEmpty) (put " : " ++ commaSeparated node bases) ++
    openBrace page.style.typeBrace ++
    (if variant = .enumType then writeEnumMembers node members else onLines node members) ++
    trailingTrivia n ++ closeBrace

def writeParameters (n : NodeId) : Written :=
  put "(" ++ commaSeparatedAt node n .parameters ++ put ")"

/-- A body in braces, or a semicolon without one. -/
def writeBody (n : NodeId) (place : BracePlace) : Written := do
  match (← forest).child? n .body with
  | some body => writeBlock node body place
  | none => put ";"

def writeMethod (n : NodeId) : Written := do
  let name ← required n .identifier
  writeModifiers node n ++ childOr node n .type "void" ++ space ++ node name ++
    writeParameters node n ++ writeBody node n (← read).style.methodBrace

def writeConstructor (n : NodeId) : Written := do
  let page ← read
  let f := page.forest
  let name : Written := match f.child? n .identifier with
    | some name => node name
    | none =>
      match (f.parent n).bind f.nameOf? with
      | some owner => writeName owner
      | none => unsupported n
  writeModifiers node n ++ name ++ writeParameters node n ++ ifChild node n .initializer space ++
    do writeBlock node (← required n .body) page.style.constructorBrace

/-- A property.  If no accessor has a body it may stand on one line. -/
def writeProperty (n : NodeId) : Written := do
  let page ← read
  let f := page.forest
  let name ← required n .identifier
  let accessors := [Title.getter, Title.setter].filterMap fun t => f.child? n t
  let isAuto := accessors.all fun a => (f.child? a .body).isNone
  writeModifiers node n ++ childOr node n .type "object" ++ space ++ node name ++
    if isAuto && page.style.compactAutoProperties then
      put " \x7b" ++ inOrder (accessors.map fun a => space ++ node a) ++ put " \x7d"
    else
      openBrace page.style.propertyBrace ++ onLines node accessors ++ trailingTrivia n ++ closeBrace

def writeAccessor (n : NodeId) (kind : AccessorKind) : Written := do
  let word := match kind with
    | .get => "get"
    | .set => "set"
    | .add => "add"
    | .remove => "remove"
  writeModifiers node n ++ put word ++ writeBody node n (← read).style.accessorBrace

def writeParameter (n : NodeId) (modifier : ParameterModifier) : Written := do
  let name ← required n .identifier
  let word : Written := match modifier with
    | .none => nothing
    | .ref => put "ref "
    | .out => put "out "
    | .params => put "params "
  word ++ childOr node n .type "object" ++ space ++ node name ++
    ifChild node n .defaultExpression (put " = ")

def writeEnumMember (n : NodeId) : Written := do
  let name ← required n .identifier
  node name ++ ifChild node n .initializer (put " = ")

def writeEvent (n : NodeId) : Written := do
  let type ← required n .type
  let name ← required n .identifier
  writeModifiers node n ++ put "event" ++ space ++ node type ++ space ++ node name ++ put ";"

def writeNamespace (n : NodeId) : Written := do
  let page ← read
  let name ← required n .fullName
  put "namespace" ++ space ++ node name ++ openBrace page.style.namespaceBrace ++
    onLines node (page.forest.children n .members) ++ trailingTrivia n ++ closeBrace

def writeChain (n : NodeId) (kind : ChainKind) : Written :=
  let word := match kind with
    | .base => "base"
    | .this => "this"
  put ": " ++ put word ++ put "(" ++ commaSeparatedAt node n .arguments ++ put ")"

end DualSyntax.CSharp
