import DualSyntax.Forest.Basic

/-!
# Edits

A node is moved, never shared: an edit that puts a node into a slot takes it out of its old place
first.  An edit that would put a node under itself, or that needs a node which the forest does not
have, is refused (`none`) and changes nothing.
-/

namespace DualSyntax.Forest

/-- Whether `child` may be put under `owner`: both are nodes of the forest, and `child` is neither
`owner` nor above it. -/
def canAttach (f : Forest) (owner child : NodeId) : Bool :=
  f.contains owner && f.contains child && owner != child && !(f.ancestors owner).contains child

def detach (f : Forest) (n : NodeId) : Forest :=
  match f.parent n with
  | none => f
  | some p =>
    (f.modify n ({ · with parent := none })).modify p
      fun d => { d with slots := d.slots.filter (·.2 != n) }

def link (f : Forest) (owner child : NodeId)
    (change : List (Title × NodeId) → List (Title × NodeId)) : Forest :=
  (f.modify child ({ · with parent := some owner })).modify owner
    fun d => { d with slots := change d.slots }

/-- Replaces the first slot under a title, or adds one at the end. -/
def putFirst (t : Title) (c : NodeId) : List (Title × NodeId) → List (Title × NodeId)
  | [] => [(t, c)]
  | s :: rest => if s.1 = t then (t, c) :: rest else s :: putFirst t c rest

/-- Puts a slot before the `i`-th slot under its title, or at the end. -/
def insertSlot (t : Title) (c : NodeId) : Nat → List (Title × NodeId) → List (Title × NodeId)
  | _, [] => [(t, c)]
  | i, s :: rest =>
    if s.1 = t then
      match i with
      | 0 => (t, c) :: s :: rest
      | i + 1 => s :: insertSlot t c i rest
    else s :: insertSlot t c i rest

/-- Removes the first child under a title and gives it back. -/
def clearChild (f : Forest) (owner : NodeId) (t : Title) : Option NodeId × Forest :=
  match f.child? owner t with
  | none => (none, f)
  | some old => (some old, f.detach old)

/-- Makes a node the first child under a title.  The child that was there is detached and given
back; a node that is already there stays. -/
def setChild? (f : Forest) (owner : NodeId) (t : Title) (c : NodeId) :
    Option (Option NodeId × Forest) :=
  if !f.canAttach owner c then none
  else if f.child? owner t == some c then some (none, f)
  else
    let f := f.detach c
    let old := f.child? owner t
    let f := f.link owner c (putFirst t c)
    some (old, old.elim f fun o => f.modify o ({ · with parent := none }))

def appendChild? (f : Forest) (owner : NodeId) (t : Title) (c : NodeId) : Option Forest :=
  if f.canAttach owner c then some ((f.detach c).link owner c (· ++ [(t, c)])) else none

/-- Adds nodes with their titles one after the other, up to the first that is refused; says whether
all were added. -/
def appendAll (f : Forest) (owner : NodeId) : List (Title × NodeId) → Bool × Forest
  | [] => (true, f)
  | (t, c) :: rest =>
    match f.appendChild? owner t c with
    | some f => f.appendAll owner rest
    | none => (false, f)

/-- Adds a node before the `i`-th child under a title. -/
def insertChild? (f : Forest) (owner : NodeId) (t : Title) (i : Nat) (c : NodeId) :
    Option Forest :=
  if f.canAttach owner c then some ((f.detach c).link owner c (insertSlot t c i)) else none

/-- Puts `new` into the place of `old`, which is detached; says whether `old` had a place. -/
def replace? (f : Forest) (old new : NodeId) : Option (Bool × Forest) :=
  if !f.contains old then none
  else if old = new then some ((f.parent old).isSome, f)
  else
    match f.parent old with
    | none => some (false, f)
    | some p =>
      if !f.canAttach p new then none
      else
        let f := f.detach new
        if (f.slots p).any (·.2 == old) then
          let f := f.link p new fun slots =>
            slots.map fun s => if s.2 = old then (s.1, new) else s
          some (true, f.modify old ({ · with parent := none }))
        else some (false, f)

/-- Copies the tree below `n` of another forest into this one; `fuel` bounds its depth. -/
def copyUpTo (source : Forest) : Nat → NodeId → Forest → NodeId × Forest
  | 0, n, f => f.allocate (source.kind n) (source.range n)
  | fuel + 1, n, f =>
    let (copy, f) := f.allocate (source.kind n) (source.range n)
    let f := (source.slots n).foldl (fun f s =>
      let (c, f) := copyUpTo source fuel s.2 f
      (f.appendChild? copy s.1 c).getD f) f
    (copy, f)

/-- Copies the tree below `n` of another forest into this one.  The copy has no parent. -/
def copyFrom (f source : Forest) (n : NodeId) : NodeId × Forest :=
  copyUpTo source source.size n f

def newIdentifier (f : Forest) (name : String) : NodeId × Forest := f.allocate (.identifier name)

/-- A node whose children are given with their titles; they are detached from where they were.  A
child that is refused ends the work, and the node stays with those before it. -/
structure Made where
  node : NodeId
  /-- Whether all children were added. -/
  complete : Bool
  forest : Forest

def newNode (f : Forest) (kind : NodeKind) (parts : List (Title × NodeId)) : Made :=
  let (n, f) := f.allocate kind
  let (complete, f) := f.appendAll n parts
  ⟨n, complete, f⟩

def newName (f : Forest) (name : String) : NodeId × Forest :=
  let (i, f) := f.newIdentifier name
  let made := f.newNode .identifierExpression [(.identifier, i)]
  (made.node, made.forest)

def newLiteral (f : Forest) (value : LiteralValue) : NodeId × Forest :=
  f.allocate (.primitiveExpression ⟨value, none⟩)

def newBinary (f : Forest) (left : NodeId) (op : BinaryOperator) (right : NodeId) : Made :=
  f.newNode (.binaryOperatorExpression op) [(.left, left), (.right, right)]

def newAssignment (f : Forest) (left : NodeId) (op : AssignmentOperator) (value : NodeId) : Made :=
  f.newNode (.assignmentExpression op) [(.left, left), (.value, value)]

def newStatement (f : Forest) (expression : NodeId) : Made :=
  f.newNode .expressionStatement [(.expression, expression)]

def newCall (f : Forest) (target : NodeId) (arguments : List NodeId) : Made :=
  f.newNode .invocationExpression ((.target, target) :: arguments.map (.arguments, ·))

end DualSyntax.Forest
