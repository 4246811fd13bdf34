import DualSyntax.Forest.Basic

/-!
# Walks and outlines

A walk enters a node, walks its children in order and leaves the node.
-/

namespace DualSyntax

inductive WalkEvent where
  | enter (n : NodeId)
  | leave (n : NodeId)
deriving DecidableEq, Repr, Inhabited

namespace Forest

/-- Runs a walk from a stack of steps that are still to be taken.  A walk of a tree takes two steps
for each of its nodes. -/
def walkFrom (f : Forest) : Nat → List WalkEvent → List WalkEvent
  | 0, _ | _, [] => []
  | fuel + 1, .leave n :: rest => .leave n :: f.walkFrom fuel rest
  | fuel + 1, .enter n :: rest =>
    .enter n :: f.walkFrom fuel ((f.slots n).map (fun s => .enter s.2) ++ .leave n :: rest)

def walk (f : Forest) (root : NodeId) : List WalkEvent :=
  f.walkFrom (2 * f.size + 2) [.enter root]

/-- The nodes of the tree below a node, itself included, parents before children. -/
def descendants (f : Forest) (root : NodeId) : List NodeId :=
  (f.walk root).filterMap fun
    | .enter n => some n
    | .leave _ => none

/-- The tree below a node with the depth and the title of each node, to a bounded depth. -/
def levelsUpTo (f : Forest) (keep : Title → Bool) :
    Nat → Nat → Option Title → NodeId → List (Nat × Option Title × NodeId)
  | 0, depth, title, n => [(depth, title, n)]
  | fuel + 1, depth, title, n =>
    (depth, title, n) ::
      (f.slots n).flatMap fun s =>
        if keep s.1 then f.levelsUpTo keep fuel (depth + 1) (some s.1) s.2 else []

def levels (f : Forest) (keep : Title → Bool) (root : NodeId) :
    List (Nat × Option Title × NodeId) :=
  f.levelsUpTo keep f.size 0 none root

/-- An indented outline of a tree without its lexical slots, one node per line. -/
def outline (f : Forest) (root : NodeId) : String :=
  String.join <| (f.levels (!·.isLexical) root).map fun (depth, title, n) =>
    String.ofList (List.replicate (2 * depth) ' ') ++
      title.elim "" (fun t => t.name ++ ": ") ++ (f.kind n).outline ++ "\n"

/-- A listing of a tree with all its slots, full kinds and places. -/
def listing (f : Forest) (root : NodeId) : String :=
  String.join <| (f.levels (fun _ => true) root).map fun (depth, title, n) =>
    String.ofList (List.replicate depth ' ') ++
      title.elim "" (fun t => t.name ++ ": ") ++ (f.kind n).detail ++
      s!" {(f.range n).start}-{(f.range n).stop}\n"

end Forest

end DualSyntax
