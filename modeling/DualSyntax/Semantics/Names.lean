import DualSyntax.Forest.Walk
import DualSyntax.Semantics.Meaning

/-!
# Questions, names and namespaces

Questions about a tree are asked one after the other.  A namespace is spelled as it was first asked
for, which matters where case does not; that is all that is remembered from one question to the
next.  While a question is being answered, it is also remembered whose base types, type or value is
being worked out, so that no question leads back to itself.
-/

namespace DualSyntax

namespace Semantics

inductive Aspect where
  | bases | type | value
deriving DecidableEq, Repr, Inhabited

structure World where
  forest : Forest
  caseSensitive : Bool
deriving Inhabited

/-- A spelling of a namespace: the root of the tree, the key of the name and the name as it was
first asked for. -/
structure Spelling where
  root : NodeId
  key : String
  name : String
deriving DecidableEq, Repr, Inhabited

/-- What questions remember. -/
structure Memory where
  spellings : List Spelling := []
  /-- What is being worked out. -/
  active : List (Aspect × NodeId) := []
deriving DecidableEq, Repr, Inhabited

end Semantics

/-- A question about a tree.  It remembers something and may run out of fuel. -/
abbrev Ask := ReaderT Semantics.World (StateT Semantics.Memory Option)

namespace Semantics

def World.sameName (w : World) (a b : String) : Bool :=
  if w.caseSensitive then a == b else Text.sameIgnoringCase a b

/-- The key of a name: the same for all names that are the same. -/
def World.key (w : World) (name : String) : String := if w.caseSensitive then name else name.toLower

def forest : Ask Forest := return (← read).forest

/-- Asks a question about an aspect of a node, unless that is being worked out. -/
def guarded {α : Type} (aspect : Aspect) (n : NodeId) (ask : Ask (Option α)) : Ask (Option α) := do
  if (← get).active.contains (aspect, n) then return none
  else
    modify fun m => { m with active := (aspect, n) :: m.active }
    let answer ← ask
    modify fun m => { m with active := m.active.erase (aspect, n) }
    return answer

def rootOf (f : Forest) (n : NodeId) : NodeId := (f.ancestors n).getLast?.getD n

/-! ## Names -/

/-- The dotted name that a node spells, to a bounded depth. -/
def dottedNameUpTo (f : Forest) : Nat → NodeId → Option String
  | 0, _ => none
  | fuel + 1, n =>
    match f.kind n with
    | .simpleType | .identifierExpression => f.nameOf? n
    | .memberType | .memberReferenceExpression _ => do
      let target ← dottedNameUpTo f fuel (← f.child? n .target)
      return target ++ "." ++ (← f.nameOf? n)
    | _ => none

def dottedName? (f : Forest) (n : NodeId) : Option String := dottedNameUpTo f (f.size + 1) n

/-- The name that a namespace declaration spells itself. -/
def ownName? (f : Forest) (decl : NodeId) : Option String := do
  dottedName? f (← f.child? decl .fullName)

/-- The full name of a namespace declaration: the names of the declarations around it, then its
own.  There is none if one of them spells no name. -/
def namespaceName? (f : Forest) (decl : NodeId) : Option String := do
  let outer := (f.ancestors decl).filter fun a => f.kind a matches .namespaceDeclaration
  let names ← (decl :: outer).mapM (ownName? f)
  return ".".intercalate names.reverse

/-- The part of a dotted name after its last dot. -/
def lastPart (name : String) : String :=
  String.ofList ((name.toList.reverse.takeWhile (· != '.')).reverse)

/-- Whether a namespace name stands in front of a dot in another one. -/
def isOuterName (w : World) (outer full : String) : Bool :=
  let n := outer.length
  w.sameName (String.ofList (full.toList.take n)) outer && (full.toList.drop n).head? == some '.'

/-- The namespace of the built-in types. -/
def systemName : String := "System"

/-! ## Namespaces -/

/-- A namespace of a tree by its full name.  It exists if it is global, declared, the outer part of
a declared name, or that of the built-in types. -/
def collectNamespace? (w : World) (root : NodeId) (fullName : String) : Option NamespaceDef :=
  if fullName.isEmpty then some ⟨"", "", root, [root]⟩
  else
    let named := ((w.forest.descendants root).filter fun n =>
      w.forest.kind n matches .namespaceDeclaration).filterMap fun n =>
        (namespaceName? w.forest n).map (n, ·)
    let decls := (named.filter fun d => w.sameName d.2 fullName).map (·.1)
    if decls.isEmpty && !w.sameName fullName systemName &&
        !named.any (fun d => isOuterName w fullName d.2) then none
    else some ⟨lastPart fullName, fullName, root, decls⟩

/-- The namespace of a tree with a full name, in the spelling that was asked for first. -/
def namespaceNamed? (root : NodeId) (fullName : String) : Ask (Option NamespaceDef) := do
  let w ← read
  let key := w.key fullName
  match (← get).spellings.find? fun s => s.root == root && s.key == key with
  | some s => return collectNamespace? w root s.name
  | none =>
    modify fun m => { m with spellings := ⟨root, key, fullName⟩ :: m.spellings }
    return collectNamespace? w root fullName

/-- The parts of a dotted name in front of its dots, longest first. -/
def outerNames (name : String) : List String :=
  let cs := name.toList
  ((List.range cs.length).reverse.filter fun i => cs[i]? == some '.').map fun i =>
    String.ofList (cs.take i)

/-- The scopes of a namespace declaration: its full name, then the names around it that it spells
itself. -/
def namespaceScopes (decl : NodeId) : Ask (List Scope) := do
  let f ← forest
  match namespaceName? f decl, ownName? f decl with
  | some full, some own =>
    let outer := String.ofList (full.toList.take (full.length - own.length))
    let names := full :: (outerNames own).map (outer ++ ·)
    let found ← names.mapM (namespaceNamed? (rootOf f decl))
    return found.reduceOption.map .ofNamespace
  | _, _ => return []

end Semantics

end DualSyntax
