import DualSyntax.VisualBasic.Statements

/-!
# Writing Visual Basic: declarations

Static classes are modules, imports stand at the top of the text, and the first base type of a
class is inherited unless its name looks like that of an interface.
-/

namespace DualSyntax.VisualBasic

open Writing

def isModule (f : Forest) (n : NodeId) : Bool :=
  match f.kind n with
  | .typeDeclaration .moduleType => true
  | .typeDeclaration .classType => f.hasModifier n .modStatic
  | _ => false

/-- The word for a modifier of a declaration: `none` if it goes without saying, an error if the
language has no word for it. -/
def modifierWord (f : Forest) (n : NodeId) (m : Modifier) : Except Unit (Option String) :=
  let isType := f.kind n matches .typeDeclaration _
  let isProperty := f.kind n matches .propertyDeclaration
  let inModule := (f.parent n).any (isModule f)
  let ordinary : Except Unit (Option String) := match Language.visualBasic.modifierText? m with
    | some word => .ok (some word)
    | none => .error ()
  match m with
  | .modStatic => if inModule || isType then .ok none else ordinary
  | .modReadonly | .modWriteOnly => if isProperty then .ok none else ordinary
  | .modAbstract => .ok (some (if isType then "MustInherit" else "MustOverride"))
  | .modSealed => .ok (some (if isType then "NotInheritable" else "NotOverridable"))
  | .modVolatile | .modUnsafe | .modExtern => .error ()
  | _ => ordinary

def writeModifiers (n : NodeId) : Written := do
  let f ← forest
  inOrder <| (f.children n .modifiers).map fun c =>
    match f.kind c with
    | .modifier m =>
      match modifierWord f n m with
      | .ok none => nothing
      | .ok (some word) => marked c (put word) ++ space
      | .error () => unsupported c
    | _ => nothing

/-- Whether the name of a type looks like that of an interface. -/
def looksLikeInterface (f : Forest) (type : NodeId) : Bool :=
  match f.kind type with
  | .memberType | .simpleType =>
    match ((f.nameOf? type).getD "").toList with
    | 'I' :: c :: _ => 'A' ≤ c && c ≤ 'Z'
    | _ => false
  | _ => false

/-- The base types that are inherited and those that are implemented. -/
def splitBases (f : Forest) (variant : TypeVariant) (bases : List NodeId) :
    List NodeId × List NodeId :=
  match variant, bases with
  | .interfaceType, bases => (bases, [])
  | .classType, first :: rest => if looksLikeInterface f first then ([], bases) else ([first], rest)
  | _, bases => ([], bases)

/-- The imports inside namespaces, those of outer namespaces first. -/
def nestedImports (f : Forest) : Nat → List NodeId → List NodeId
  | 0, _ => []
  | fuel + 1, members =>
    members.flatMap fun m =>
      if f.kind m matches .namespaceDeclaration then
        let inner := f.children m .members
        inner.filter (fun i => f.kind i matches .usingDeclaration) ++ nestedImports f fuel inner
      else []

variable (node : NodeId → Written)

def writeBases (word : String) (bases : List NodeId) : Written :=
  onlyIf (!bases.isEmpty) (put word ++ space ++ commaSeparated node bases ++ newLine)

def writeTypeDeclaration (n : NodeId) (variant : TypeVariant) : Written := do
  let f ← forest
  let name ← required n .identifier
  let word := match variant with
    | .classType => if isModule f n then "Module" else "Class"
    | .structType => "Structure"
    | .interfaceType => "Interface"
    | .enumType => "Enum"
    | .moduleType => "Module"
  let bases := f.children n .baseTypes
  let isEnum := variant == .enumType
  let (inherited, implemented) := splitBases f variant bases
  writeModifiers n ++ put word ++ space ++ node name ++
    (if isEnum then writeAsClause node bases.head? else nothing) ++ newLine ++
    indented (
      onlyIf (!isEnum)
        (writeBases node "Inherits" inherited ++ writeBases node "Implements" implemented) ++
      onLines node (f.children n .members) ++ trailingTrivia n) ++
    put "End" ++ space ++ put word

def writeField (n : NodeId) : Written := do
  let bare := ((← forest).children n .modifiers).isEmpty
  onlyIf bare (put "Dim" ++ space) ++ writeModifiers n ++ writeDeclarators node n

def writeParameters (n : NodeId) : Written :=
  put "(" ++ commaSeparatedAt node n .parameters ++ put ")"

/-- A method: a `Function` if it gives a value, a `Sub` otherwise. -/
def writeMethod (n : NodeId) : Written := do
  let f ← forest
  let name ← required n .identifier
  let result := (f.child? n .type).filter fun t => !(f.kind t matches .primitiveType .void)
  let word := if result.isSome then "Function" else "Sub"
  writeModifiers n ++ put word ++ space ++ node name ++ writeParameters node n ++
    writeAsClause node result ++
    match f.child? n .body with
    | some body => writeConstruct node body "End" ++ space ++ put word
    | none => nothing

def writeConstructor (n : NodeId) : Written := do
  let body ← required n .body
  writeModifiers n ++ put "Sub New" ++ writeParameters node n ++ newLine ++
    indented (
      (match (← forest).child? n .initializer with
        | some chain => node chain ++ newLine
        | none => nothing) ++
      writeStatements node [body]) ++
    put "End Sub"

/-- A property.  If no accessor has a body it stands on one line. -/
def writeProperty (n : NodeId) : Written := do
  let f ← forest
  let name ← required n .identifier
  let getter := f.child? n .getter
  let setter := f.child? n .setter
  let access : Written := match getter, setter with
    | some _, none => put "ReadOnly" ++ space
    | none, some _ => put "WriteOnly" ++ space
    | _, _ => nothing
  let accessors := getter.toList ++ setter.toList
  writeModifiers n ++ access ++ put "Property" ++ space ++ node name ++
    writeAsClause node (f.child? n .type) ++
    if accessors.all fun a => (f.child? a .body).isNone then nothing
    else
      newLine ++ indented (onLines node accessors ++ trailingTrivia n) ++ put "End Property"

/-- An accessor; a setter names the value it receives. -/
def writeAccessor (n : NodeId) (kind : AccessorKind) : Written := do
  let f ← forest
  let word := match kind with
    | .get => "Get"
    | .set => "Set"
    | .add => "AddHandler"
    | .remove => "RemoveHandler"
  let type := (f.parent n).bind fun p => f.child? p .type
  writeModifiers n ++ put word ++
    onlyIf (kind == .set)
      (put "(" ++ writeName "value" ++ writeAsClause node type ++ put ")") ++
    newLine ++
    (match f.child? n .body with
      | some body => writeBody node body
      | none => nothing) ++
    put "End" ++ space ++ put word

def writeParameter (n : NodeId) (modifier : ParameterModifier) : Written := do
  let f ← forest
  let name ← required n .identifier
  let passing : Written := match modifier with
    | .none => nothing
    | .ref | .out => put "ByRef" ++ space
    | .params => put "ParamArray" ++ space
  onlyIf (f.child? n .defaultExpression).isSome (put "Optional" ++ space) ++ passing ++ node name ++
    writeAsClause node (f.child? n .type) ++ ifChild node n .defaultExpression (put " = ")

def writeEnumMember (n : NodeId) : Written := do
  let name ← required n .identifier
  node name ++ ifChild node n .initializer (put " = ")

def writeEvent (n : NodeId) : Written := do
  let name ← required n .identifier
  let type ← required n .type
  writeModifiers n ++ put "Event" ++ space ++ node name ++ writeAsClause node (some type)

/-- A whole text: all imports first, then the other members. -/
def writeCompilationUnit (n : NodeId) : Written := do
  let f ← forest
  let (imports, members) :=
    (f.children n .members).partition fun m => f.kind m matches .usingDeclaration
  onLines node (imports ++ nestedImports f (f.size + 1) members) ++ onLines node members ++
    trailingTrivia n

def writeNamespace (n : NodeId) : Written := do
  let f ← forest
  let name ← required n .fullName
  let members := (f.children n .members).filter fun m => !(f.kind m matches .usingDeclaration)
  put "Namespace" ++ space ++ node name ++ newLine ++
    indented (onLines node members ++ trailingTrivia n) ++ put "End Namespace"

def writeChain (n : NodeId) (kind : ChainKind) : Written :=
  let word := match kind with
    | .base => "MyBase"
    | .this => "Me"
  put word ++ put "." ++ put "New" ++ put "(" ++ commaSeparatedAt node n .arguments ++ put ")"

end DualSyntax.VisualBasic
