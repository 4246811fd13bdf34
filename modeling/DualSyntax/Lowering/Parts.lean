import DualSyntax.Lowering.Comments

/-!
# Reading parts

The children of a match are read from left to right.  A part takes the children it asks for and
leaves the rest to the parts after it; terminators are taken out before.
-/

namespace DualSyntax.Lowering

variable {δ : Type} [BEq δ]

/-- The children of a match that are still to be read, and the name of the match. -/
structure Cursor (δ : Type) where
  form : String
  rest : List (RawTree δ)

abbrev Recur (δ : Type) := RawTree δ → Lower NodeId

/-- The cursor over the children of a match without its terminators. -/
def cursor (g : Grammar δ) (raw : RawTree δ) : Cursor δ :=
  ⟨raw.formName g, raw.children.filter fun c =>
    !(c.token?.any fun t => g.terminators.contains t.kind)⟩

namespace Cursor

def unexpected {α : Type} (c : Cursor δ) (expected : String) : Lower α :=
  throw (.unexpectedShape c.form expected)

def eatAny (c : Cursor δ) (kinds : List TokenKind) : Option Token × Cursor δ :=
  match c.rest with
  | .leaf t :: rest => if kinds.contains t.kind then (some t, { c with rest }) else (none, c)
  | _ => (none, c)

def eat (c : Cursor δ) (k : TokenKind) : Option Token × Cursor δ := c.eatAny [k]

def token (c : Cursor δ) (k : TokenKind) : Lower (Token × Cursor δ) :=
  match c.eat k with
  | (some t, c) => return (t, c)
  | (none, c) => c.unexpected ("token `" ++ k.name ++ "`")

def anyToken (c : Cursor δ) : Lower (Token × Cursor δ) :=
  match c.rest with
  | .leaf t :: rest => return (t, { c with rest })
  | _ => c.unexpected "a token"

def eatNode (c : Cursor δ) : Option (RawTree δ) × Cursor δ :=
  match c.rest with
  | .node f i j cs :: rest => (some (.node f i j cs), { c with rest })
  | _ => (none, c)

def node (c : Cursor δ) : Lower (RawTree δ × Cursor δ) :=
  match c.eatNode with
  | (some raw, c) => return (raw, c)
  | (none, c) => c.unexpected "a node"

/-- Takes the next child if it is a match of the definition. -/
def eatForm (c : Cursor δ) (d : δ) : Option (RawTree δ) × Cursor δ :=
  match c.rest with
  | raw :: rest => if raw.isForm d then (some raw, { c with rest }) else (none, c)
  | [] => (none, c)

/-- Takes the matches that follow, as long as they are of the definition if one is given. -/
def takeNodes (c : Cursor δ) (d : Option δ) : List (RawTree δ) × Cursor δ :=
  let wanted (raw : RawTree δ) : Bool :=
    raw.token?.isNone && d.all fun d => raw.isForm d
  (c.rest.takeWhile wanted, { c with rest := c.rest.dropWhile wanted })

end Cursor

/-- The node of a child: of a match as its shape says, of a token as it is. -/
def child (recur : Recur δ) : RawTree δ → Lower NodeId
  | .leaf t => Lower.token t
  | raw => recur raw

def elements (g : Grammar δ) (recur : Recur δ) (raw : RawTree δ) : Lower (List NodeId) :=
  (raw.listItems g).1.mapM (child recur)

def pushAll (owner : NodeId) (t : Title) (ns : List NodeId) : Lower Unit :=
  ns.forM (Lower.push owner t)

/-- Adds the modifiers among the tokens of a match; those for which `drop` holds are made but not
attached, and are given back. -/
def addModifiers (drop : Modifier → Bool) (owner : NodeId) (raw : RawTree δ) :
    Lower (List Modifier) :=
  raw.childTokens.foldlM (fun dropped t => do
    let n ← Lower.modifier t
    match ← Lower.inspect (·.kind n) with
    | .modifier m =>
      if drop m then return dropped ++ [m]
      else
        Lower.push owner .modifiers n
        return dropped
    | _ => return dropped) []

/-- The modifiers that say which accessors a property has. -/
def saysAccessors (m : Modifier) : Bool := m == .modReadonly || m == .modWriteOnly

def commasIn (g : Grammar δ) : RawTree δ → Nat
  | .leaf t => if t.kind = .comma then 1 else 0
  | dims => (dims.listItems g).2.length

/-- The number of dimensions that a match in brackets spells. -/
def rankOf (g : Grammar δ) (raw : RawTree δ) : Nat :=
  raw.children.foldl (fun n part => n + commasIn g part) 1

def arrayOf (g : Grammar δ) (element : NodeId) (rank : RawTree δ) (span : Span) :
    Lower NodeId := do
  let n ← Lower.allocate (.arrayType (rankOf g rank)) span
  Lower.set n .type element
  return n

def spanOf (raw : RawTree δ) : Lower Span := return raw.span (← read).stream

def setAccessor (owner : NodeId) (n : NodeId) : Lower Unit := do
  match ← Lower.inspect (·.kind n) with
  | .accessor .get => Lower.set owner .getter n
  | _ => Lower.set owner .setter n

def expressionStatements (g : Grammar δ) (recur : Recur δ) (raw : RawTree δ) :
    Lower (List NodeId) :=
  (raw.listItems g).1.mapM fun el => do
    let e ← child recur el
    let n ← Lower.allocate .expressionStatement (← spanOf el)
    Lower.set n .expression e
    return n

/-- Whether a match is nothing but an empty statement. -/
def isEmptyStatement (g : Grammar δ) (raw : RawTree δ) : Bool :=
  match raw.children with
  | [inner] => inner.token?.isNone && inner.formName g == "EmptyStatement"
  | _ => false

/-- Whether a match is the one word for the empty type. -/
def isVoid (raw : RawTree δ) : Bool :=
  match raw.tokens with
  | [t] => t.kind == .kwVoid
  | _ => false

/-- Adds a member to a type; a constructor without a name takes the name of the type. -/
def addMember (recur : Recur δ) (owner : NodeId) (name : Option (RawTree δ)) (raw : RawTree δ) :
    Lower Unit := do
  let n ← recur raw
  let nameless ← Lower.inspect fun f =>
    f.kind n == .constructorDeclaration && (f.child? n .identifier).isNone
  if nameless then
    if let some name := name then Lower.set n .identifier (← recur name)
  Lower.push owner .members n

end DualSyntax.Lowering
