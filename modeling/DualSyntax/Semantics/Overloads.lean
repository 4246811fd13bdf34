import DualSyntax.Semantics.Lookup

/-!
# Conversions and overloads

Which types convert to which without being asked to, and which of several methods a call means.
-/

namespace DualSyntax.Semantics

/-- How well a type converts to another. -/
inductive Fit where
  | none | implicit | exact
deriving DecidableEq, Repr, Inhabited

def Fit.implicitIf (b : Bool) : Fit := if b then implicit else none

def isReference (f : Forest) : TypeRef → Bool
  | .known t => t == .string || t == .object
  | .declared decl =>
    match f.kind decl with
    | .typeDeclaration .structType | .typeDeclaration .enumType => false
    | _ => true
  | .array _ _ | .null => true

variable (answers : Answers)

/-- Whether a type is reached from a stack of types through base lists. -/
def reaches (base : NodeId) : Nat → List NodeId → List NodeId → Ask Bool
  | 0, _, _ => failure
  | _ + 1, _, [] => return false
  | fuel + 1, seen, n :: stack => do
    if n = base then return true
    else if seen.contains n then reaches base fuel seen stack
    else reaches base fuel (n :: seen) ((← baseTypes answers n).reverse ++ stack)

/-- Whether a type inherits or implements another, directly or not. -/
def derivesFrom (n base : NodeId) : Ask Bool := do
  let bases ← baseTypes answers n
  reaches answers base (2 * (← forest).size + 2) [] bases.reverse

/-- How well a type converts to another.  Everything converts to the type of all objects, and arrays
of references convert as their elements do. -/
def conversion (source target : TypeRef) : Ask Fit := do
  let f ← forest
  if source = target then return .exact
  else if target = .known .object then return .implicit
  else
    match source, target with
    | .null, target => return .implicitIf (isReference f target)
    | .known a, .known b => return .implicitIf (a.widensTo b)
    | .declared a, .declared b => return .implicitIf (← derivesFrom answers a b)
    | .array a m, .array b n =>
      if m = n && isReference f a then return .implicitIf ((← conversion a b) != .none)
      else return .none
    | _, _ => return .none

/-- The base class of a type: the first class in its base list, else the type of all objects. -/
def baseClass (n : NodeId) : Ask TypeRef := do
  let f ← forest
  let bases ← baseTypes answers n
  return ((bases.find? fun b => f.kind b matches .typeDeclaration .classType).map .declared).getD
    (.known .object)

def returnType (m : MethodDef) : Ask (Option TypeRef) :=
  match m.returnType with
  | some n => typeAt answers n
  | none => return if m.isConstructor then none else some (.known .void)

/-- How well an argument of one type fits a parameter of another.  A parameter that takes any number of
arguments also takes one of them. -/
def typeFit (modifier : ParameterModifier) (argument type : TypeRef) : Ask Fit := do
  let fit ← conversion answers argument type
  match fit, modifier, type with
  | .none, .params, .array element _ =>
    return .implicitIf ((← conversion answers argument element) != .none)
  | fit, _, _ => return fit

/-- How well an argument fits a parameter.  Nothing is known about an argument or a parameter without
a type. -/
def argumentFit (argument : Option TypeRef) (p : ParameterDef) : Ask Fit := do
  match argument, ← typeAt? answers p.type with
  | some argument, some type => typeFit answers p.modifier argument type
  | _, _ => return .implicit

/-- How well arguments fit the parameters of a method; those after the last parameter belong to
it. -/
def argumentsFit (last : Option ParameterDef) : List (Option TypeRef) → List ParameterDef → Ask Fit
  | [], _ => return .exact
  | argument :: arguments, ps => do
    match ps.head?.or last with
    | none => return .none
    | some p =>
      match ← argumentFit answers argument p with
      | .none => return .none
      | fit =>
        match ← argumentsFit last arguments ps.tail with
        | .none => return .none
        | rest => return if fit = .exact then rest else .implicit

/-- How well a method accepts arguments of the given types. -/
def applicability (m : MethodDef) (arguments : List (Option TypeRef)) : Ask Fit := do
  let (least, most) := m.arity
  if arguments.length < least || most.any (· < arguments.length) then return .none
  else argumentsFit answers m.parameters.getLast? arguments m.parameters

/-- The methods that accept arguments of the given types, and how well. -/
def applicable (arguments : List (Option TypeRef)) : List Definition → Ask (List (Definition × Fit))
  | [] => return []
  | d :: ds => do
    let fit ← match d.method? with
      | some m => applicability answers m arguments
      | none => pure .none
    let rest ← applicable arguments ds
    return if fit = .none then rest else (d, fit) :: rest

def callOf (arguments : List Meaning) (d : Definition) : Ask Meaning := do
  match d.method? with
  | some m => return .call (some d) arguments (← returnType answers m)
  | none => return .call (some d) arguments none

/-- The meaning of a call of one of several methods: the only one that accepts the arguments, or of
those the only one whose parameters have exactly their types. -/
def pickOverload (candidates : List Definition) (arguments : List Meaning) : Ask Meaning := do
  let types := arguments.map Meaning.type?
  let name := candidates.head?.elim "" Definition.name
  let accepting ← applicable answers types candidates
  match accepting with
  | [] =>
    return .error ("no overload of `" ++ name ++ "` accepts " ++ toString types.length ++
      " argument(s) of these types") candidates
  | [(d, _)] => callOf answers arguments d
  | _ =>
    match accepting.filter (·.2 == .exact) with
    | [(d, _)] => callOf answers arguments d
    | _ => return .error ("ambiguous call to `" ++ name ++ "`") (accepting.map (·.1))

end DualSyntax.Semantics
