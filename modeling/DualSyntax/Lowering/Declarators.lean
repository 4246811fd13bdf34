import DualSyntax.Lowering.Parts

/-!
# Declared variables

In VB one type clause may serve several variables: `a, b As T` gives both the type `T`.  A variable
without a clause and without an initializer takes the type of the next clause.  If all variables
share one clause the type belongs to the declaration, otherwise each variable has its own.
-/

namespace DualSyntax.Lowering

variable {δ : Type} [BEq δ]

structure DeclaratorForms (δ : Type) where
  /-- Sizes or a rank after the name. -/
  suffix : δ
  /-- A clause that gives a type. -/
  asType : δ
  /-- A clause that gives a type and creates an object of it. -/
  asNew : δ

structure Declarator (δ : Type) where
  raw : RawTree δ
  name : RawTree δ
  suffix : Option (RawTree δ)
  clause : Option (RawTree δ)
  assign : Option Token
  initializer : Option (RawTree δ)

def readDeclarator (g : Grammar δ) (forms : DeclaratorForms δ) (raw : RawTree δ) :
    Lower (Declarator δ) := do
  let (name, c) ← (cursor g raw).node
  let (suffix, c) := c.eatForm forms.suffix
  let (asType, c) := c.eatForm forms.asType
  let (clause, c) := match asType with
    | some clause => (some clause, c)
    | none => c.eatForm forms.asNew
  let (assign, c) := c.eat .eq
  return ⟨raw, name, suffix, clause, assign, c.eatNode.1⟩

/-- The clause that gives each declarator its type: its own, or the next one if it has no
initializer.  Clauses are told apart by the index of their declarator. -/
def clausesFrom (i : Nat) : List (Declarator δ) → List (Option (Nat × RawTree δ))
  | [] => []
  | d :: ds =>
    let later := clausesFrom (i + 1) ds
    (match d.clause with
      | some clause => some (i, clause)
      | none => if d.initializer.isSome then none else nextClause (i + 1) ds) :: later
where
  /-- The first clause that follows. -/
  nextClause (i : Nat) : List (Declarator δ) → Option (Nat × RawTree δ)
    | [] => none
    | d :: ds =>
      match d.clause with
      | some clause => some (i, clause)
      | none => nextClause (i + 1) ds

/-- Whether the type belongs to the declaration as a whole. -/
def sharesType (ds : List (Declarator δ)) (clauses : List (Option (Nat × RawTree δ))) : Bool :=
  let owners := clauses.map fun c => c.map (·.1)
  ds.length == 1 ||
    ((owners.zip owners.tail).all fun (a, b) => a == b) && ds.all (·.suffix.isNone)

def clauseType (g : Grammar δ) (recur : Recur δ) (clause : RawTree δ) : Lower NodeId := do
  let (_, c) ← (cursor g clause).token .kwAs
  let (_, c) := c.eat .kwNew
  recur (← c.node).1

def clauseCreation (g : Grammar δ) (recur : Recur δ) (clause : RawTree δ) :
    Lower (Option NodeId) := do
  let (_, c) ← (cursor g clause).token .kwAs
  let (some kw, c) := c.eat .kwNew | return none
  let n ← Lower.allocate .objectCreateExpression (← spanOf clause)
  Lower.setToken n .keyword kw
  let (raw, c) ← c.node
  Lower.set n .type (← recur raw)
  if let (some _, c) := c.eat .lParen then
    pushAll n .arguments (← elements g recur (← c.node).1)
  return some n

def declaratorType (g : Grammar δ) (recur : Recur δ) (d : Declarator δ)
    (clause : RawTree δ) : Lower NodeId := do
  let type ← clauseType g recur clause
  match d.suffix with
  | some suffix => arrayOf g type suffix (← spanOf suffix)
  | none => return type

/-- The initial value of a declarator: the one it spells, the object its clause creates, or an
array of the sizes after its name. -/
def declaratorValue (g : Grammar δ) (recur : Recur δ) (forms : DeclaratorForms δ) (n : NodeId)
    (d : Declarator δ) (clause : Option (RawTree δ)) : Lower (Option NodeId) := do
  match d.initializer with
  | some raw =>
    if let some t := d.assign then Lower.setToken n .assign t
    return some (← recur raw)
  | none =>
    match d.clause.filter (·.isForm forms.asNew), d.suffix with
    | some own, _ => clauseCreation g recur own
    | none, some suffix =>
      match suffix.children[1]?.filter (·.token?.isNone), clause with
      | some sizes, some clause =>
        let array ← Lower.allocate (.arrayCreateExpression .upperBound) (← spanOf suffix)
        Lower.set array .type (← clauseType g recur clause)
        pushAll array .arguments (← elements g recur sizes)
        return some array
      | _, _ => return none
    | none, none => return none

def addDeclarators (g : Grammar δ) (recur : Recur δ) (forms : DeclaratorForms δ) (owner : NodeId)
    (raw : RawTree δ) : Lower Unit := do
  let ds ← ((raw.listItems g).1.filter (·.token?.isNone)).mapM (readDeclarator g forms)
  let clauses := clausesFrom 0 ds
  let shared := sharesType ds clauses
  if shared then
    if let (d :: _, some (_, clause) :: _) := (ds, clauses) then
      Lower.set owner .type (← declaratorType g recur d clause)
  for (d, found) in ds.zip clauses do
    let clause := found.map (·.2)
    let n ← Lower.allocate .variableDeclarator (← spanOf d.raw)
    Lower.set n .identifier (← recur d.name)
    if !shared then
      if let some clause := clause then
        Lower.set n .type (← declaratorType g recur d clause)
    if let some value ← declaratorValue g recur forms n d clause then
      Lower.set n .initializer value
    Lower.push owner .declarators n

end DualSyntax.Lowering
