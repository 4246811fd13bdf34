import DualSyntax.Forest.Edit
import DualSyntax.Forest.Walk

/-!
# Workbenches

A workbench holds several forests, told apart by numbers, and names for some of their nodes.  A name
that is given again moves to another node but keeps its age; a node is shown by its oldest name.
A name stands for the number of a node, and keeps it when its forest is replaced: it then names the
node with that number in the new forest, or none if there are fewer.
-/

namespace DualSyntax

structure Place where
  forest : Nat
  node : NodeId
deriving DecidableEq, Repr, Inhabited

structure Workbench where
  forests : List (Nat × Forest) := []
  /-- The names with their nodes, the oldest first. -/
  names : List (String × Place) := []
deriving Inhabited

namespace Workbench

def forest (w : Workbench) (i : Nat) : Forest := (w.forests.lookup i).getD {}

/-- Puts a forest in the place of the one with a number. -/
def putForest (w : Workbench) (i : Nat) (f : Forest) : Workbench :=
  { w with forests := (i, f) :: w.forests.filter (·.1 != i) }

def place? (w : Workbench) (name : String) : Option Place := w.names.lookup name

def forestAt? (w : Workbench) (p : Place) : Option Forest :=
  let f := w.forest p.forest
  if f.contains p.node then some f else none

def putName (name : String) (p : Place) : List (String × Place) → List (String × Place)
  | [] => [(name, p)]
  | b :: bs => if b.1 = name then (name, p) :: bs else b :: putName name p bs

def bind (w : Workbench) (name : String) (p : Place) : Workbench :=
  { w with names := putName name p w.names }

/-- The oldest name of a node, or its kind in angle brackets. -/
def label (w : Workbench) (p : Place) : String :=
  match w.names.find? fun b => b.2 = p with
  | some b => b.1
  | none => "<" ++ ((w.forest p.forest).kind p.node).name ++ ">"

/-- The sketch of a tree to a bounded depth. -/
def sketchUpTo (w : Workbench) : Nat → Place → String
  | 0, p => w.label p
  | fuel + 1, p =>
    let slots := (w.forest p.forest).slots p.node
    w.label p ++ if slots.isEmpty then "" else
      "(" ++ ", ".intercalate (slots.map fun s =>
        s.1.name ++ ":" ++ w.sketchUpTo fuel ⟨p.forest, s.2⟩) ++ ")"

/-- The sketch of a tree: the label of its root, and its children with their titles. -/
def sketch? (w : Workbench) (p : Place) : Option String :=
  (w.forestAt? p).map fun f => w.sketchUpTo f.size p

/-- The steps of a walk, `+` for entering a node and `-` for leaving it. -/
def walkTexts (w : Workbench) (p : Place) : List String :=
  ((w.forest p.forest).walk p.node).map fun
    | .enter n => "+" ++ w.label ⟨p.forest, n⟩
    | .leave n => "-" ++ w.label ⟨p.forest, n⟩

end Workbench

end DualSyntax
