import DualSyntax.Json
import DualSyntax.Semantics

/-!
# Descriptions

Short texts for types, definitions and scopes, which name a declaration by its place in the source,
and full descriptions of definitions and meanings as JSON.
-/

namespace DualSyntax

namespace Forest

def startText (f : Forest) (n : NodeId) : String := toString (f.range n).start

def nameWithPlace (f : Forest) (n : NodeId) : String :=
  (f.nameOf? n).getD "" ++ "@" ++ f.startText n

def kindWithPlace (f : Forest) (n : NodeId) : String :=
  (f.kind n).name ++ "@" ++ f.startText n

def startJson (f : Forest) (n : NodeId) : Json := .string (f.startText n)

def kindJson (f : Forest) (n : NodeId) : Json := .string (f.kind n).name

def kindJson? (f : Forest) (n : Option NodeId) : Json := Json.ofOption (n.map f.kindJson)

end Forest

/-! ## Texts -/

def TypeRef.describe (f : Forest) : TypeRef → String
  | known t => t.name
  | declared n => f.nameWithPlace n
  | array element rank =>
    element.describe f ++ "[" ++ String.ofList (List.replicate (rank - 1) ',') ++ "]"
  | null => "null"

def Definition.describe (f : Forest) : Definition → String
  | ofNamespace d => "namespace " ++ Text.quoted d.fullName
  | d => d.category ++ " " ++ d.name ++ d.decl?.elim "" fun n => "@" ++ f.startText n

def Scope.describe (f : Forest) : Scope → String
  | block n upto => "Block@" ++ f.startText n ++ " upto " ++ toString upto
  | statement n => "Statement " ++ f.kindWithPlace n
  | method n => "Method " ++ f.kindWithPlace n
  | type n => "Type " ++ f.nameWithPlace n
  | ofNamespace d => "Namespace " ++ Text.quoted d.fullName
  | imports n => "Imports " ++ f.kindWithPlace n
  | compilationUnit n => "CompilationUnit@" ++ f.startText n

/-! ## JSON -/

namespace Semantics

def typeJson (f : Forest) (t : Option TypeRef) : Json := Json.ofString? (t.map (·.describe f))

def definitionTexts (f : Forest) (ds : List Definition) : Json :=
  .array (ds.map fun d => .string (d.describe f))

def constantJson : ConstantValue → Json
  | .null => .array [.string "null"]
  | .boolean b => .array [.string "bool", .bool b]
  | .integer i => .array [.string "int", .string (toString i)]
  | .real x => .array [.string "real", .string (RealNotation.marked.text x)]
  | .string s => .array [.string "string", .string s]
  | .char c => .array [.string "char", .string (String.singleton c)]

def meaningMembers (f : Forest) : Meaning → List (String × Json)
  | .unknown name => [("r", .string "UnknownIdentifier"), ("name", .string name)]
  | .member candidates type =>
    [("r", .string "Member"), ("defs", definitionTexts f candidates), ("ty", typeJson f type)]
  | .constant value type =>
    [("r", .string "Constant"), ("value", constantJson value), ("ty", typeJson f type)]
  | .call method arguments type =>
    [("r", .string "Invocation"), ("method", Json.ofString? (method.map (·.describe f))),
      ("args", .array (arguments.map fun a => .object (meaningMembers f a))),
      ("ty", typeJson f type)]
  | .this type => [("r", .string "This"), ("ty", typeJson f type)]
  | .base type => [("r", .string "Base"), ("ty", typeJson f type)]
  | .conversion type operand =>
    [("r", .string "Conversion"), ("ty", typeJson f (some type)),
      ("operand", .object (meaningMembers f operand))]
  | .error message candidates =>
    [("r", .string "Error"), ("message", .string message),
      ("defs", definitionTexts f candidates)]

/-- A meaning with its constant value and its scope. -/
def meaningJson (m : Meaning) : Ask Json := do
  let f ← forest
  let value ← constantValue m
  return .object (meaningMembers f m ++ (value.toList.map fun v => ("const", constantJson v)) ++
    (m.scope?.toList.map fun s => ("scope", .string (s.describe f))))

/-- A parameter: name, modifier, whether it may be left out, and type. -/
def parameterJson (p : ParameterDef) : Ask Json := do
  let f ← forest
  let type ← match p.type with
    | some n => typeOfNode n
    | none => pure none
  return .array [.string p.name, .string p.modifier.name, .bool p.isOptional, typeJson f type]

def definitionDetails (d : Definition) : Ask Json := do
  let f ← forest
  let owner (n : NodeId) : String × Json := ("owner", Json.ofString? (f.nameOf? n))
  let typeNode (n : Option NodeId) : String × Json := ("type_node", f.kindJson? n)
  match d with
  | .ofNamespace d =>
    return .object [("name", .string d.name), ("full_name", .string d.fullName),
      ("global", .bool d.fullName.isEmpty), ("decls", .array (d.decls.map f.startJson))]
  | .ofType d =>
    let bases ← d.baseTypes.mapM fun n => do return typeJson f (← typeOfNode n)
    let (variant, known) := match d.origin with
      | .builtin t => (none, some t.name)
      | .declared _ v => (some v.name, none)
    return .object [("variant", Json.ofString? variant), ("known", Json.ofString? known),
      ("builtin", .bool known.isSome),
      ("members", .array (d.members.map fun m =>
        .array [.string m.1, .array (m.2.map f.startJson)])),
      ("constructors", .array (d.constructors.map f.startJson)), ("bases", .array bases)]
  | .ofField d =>
    return .object [typeNode d.type, owner d.owner, ("const", .bool d.isConst),
      ("enum_member", .bool d.isEnumMember), ("initializer", f.kindJson? d.initializer)]
  | .ofProperty d =>
    return .object [typeNode d.type, owner d.owner, ("readable", .bool d.readable),
      ("writable", .bool d.writable)]
  | .ofMethod d =>
    let (least, most) := d.arity
    return .object [("return_node", f.kindJson? d.returnType), owner d.owner,
      ("constructor", .bool d.isConstructor),
      ("arity", .array [Json.ofNat least, Json.ofOption (most.map Json.ofNat)]),
      ("params", .array (← d.parameters.mapM parameterJson))]
  | .ofEvent d => return .object [typeNode d.type, owner d.owner]
  | .ofVariable d =>
    return .object [("kind", .string d.kind.name), typeNode d.type, ("const", .bool d.isConst),
      ("initializer", f.kindJson? d.initializer)]

def definitionMembers (d : Definition) : Ask (List (String × Json)) := do
  let f ← forest
  let type ← typeOfDefinition d
  return [("def", .string (d.describe f)), ("category", .string d.category),
    ("type_like", .bool d.isTypeLike), ("ty", typeJson f type), ("details", ← definitionDetails d)]

end Semantics

end DualSyntax
