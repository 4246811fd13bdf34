import DualSyntax.Node.Kind
import DualSyntax.Node.Title
import DualSyntax.Text.Position

/-!
# Forests

A forest is a table of nodes that refer to each other by number.  Every node knows its kind, its
place in the source, its parent and its children, which hang in titled slots.  Nodes are never
deleted: one that is taken out of its parent stays as a root of its own.

The links of a well-made forest agree (a child names as its parent the node in whose slots it
occurs, and occurs there once) and have no cycle; the edits in `Forest.Edit` keep both.
-/

namespace DualSyntax

abbrev NodeId := Nat

structure NodeData where
  kind : NodeKind
  /-- The place in the source, or the default range for nodes made otherwise. -/
  range : TextRange := {}
  parent : Option NodeId := none
  /-- The children with their titles, in order. -/
  slots : List (Title × NodeId) := []
deriving Inhabited

/-- A table of linked nodes. -/
structure Forest where
  nodes : Array NodeData := #[]
deriving Inhabited

namespace Forest

/-- The number of nodes, detached ones included. -/
def size (f : Forest) : Nat := f.nodes.size

def contains (f : Forest) (n : NodeId) : Bool := n < f.size

/-- The data of a node; a number that is no node has no links and counts as a blank line. -/
def data (f : Forest) (n : NodeId) : NodeData := (f.nodes[n]?).getD { kind := .blankLine }

def kind (f : Forest) (n : NodeId) : NodeKind := (f.data n).kind

/-- The place of a node in the source. -/
def range (f : Forest) (n : NodeId) : TextRange := (f.data n).range

def parent (f : Forest) (n : NodeId) : Option NodeId := (f.data n).parent

def slots (f : Forest) (n : NodeId) : List (Title × NodeId) := (f.data n).slots

def children (f : Forest) (n : NodeId) (t : Title) : List NodeId :=
  ((f.slots n).filter (·.1 == t)).map (·.2)

def child? (f : Forest) (n : NodeId) (t : Title) : Option NodeId :=
  ((f.slots n).find? (·.1 == t)).map (·.2)

def titleInParent? (f : Forest) (n : NodeId) : Option Title := do
  let p ← f.parent n
  let slot ← (f.slots p).find? (·.2 == n)
  return slot.1

/-- The chain of parents from `n` upwards, `n` itself excluded, at most `fuel` of them. -/
def ancestorsUpTo (f : Forest) : Nat → NodeId → List NodeId
  | 0, _ => []
  | fuel + 1, n =>
    match f.parent n with
    | some p => p :: f.ancestorsUpTo fuel p
    | none => []

/-- Parent, grandparent and so on.  Without a cycle there are fewer ancestors than nodes. -/
def ancestors (f : Forest) (n : NodeId) : List NodeId := f.ancestorsUpTo f.size n

def allocate (f : Forest) (kind : NodeKind) (range : TextRange := {}) : NodeId × Forest :=
  (f.size, ⟨f.nodes.push { kind, range }⟩)

def modify (f : Forest) (n : NodeId) (g : NodeData → NodeData) : Forest := ⟨f.nodes.modify n g⟩

def setKind (f : Forest) (n : NodeId) (kind : NodeKind) : Forest := f.modify n ({ · with kind })

def nameOf? (f : Forest) (n : NodeId) : Option String :=
  match (f.child? n .identifier).map f.kind with
  | some (.identifier s) => some s
  | _ => none

def modifiersOf (f : Forest) (n : NodeId) : List Modifier :=
  (f.children n .modifiers).filterMap fun m =>
    match f.kind m with
    | .modifier m => some m
    | _ => none

def hasModifier (f : Forest) (n : NodeId) (m : Modifier) : Bool := (f.modifiersOf n).contains m

end Forest

end DualSyntax
