import DualSyntax.Forest.Basic

/-!
# Structural agreement

Two trees agree when their kinds agree and, title by title, their children agree in order.
Lexical slots, places and spellings do not count, nor does the order of different titles.
-/

namespace DualSyntax.Forest

/-- The titles of two nodes that structural agreement looks at, each once. -/
def comparedTitles (a b : List (Title × NodeId)) : List Title :=
  (((a ++ b).map (·.1)).filter (!·.isLexical)).eraseDups

/-- Agreement of two trees to a bounded depth. -/
def agreeUpTo (f g : Forest) : Nat → NodeId → NodeId → Bool
  | 0, a, b => (f.kind a).agrees (g.kind b)
  | fuel + 1, a, b =>
    (f.kind a).agrees (g.kind b) &&
      (comparedTitles (f.slots a) (g.slots b)).all fun t =>
        let xs := f.children a t
        let ys := g.children b t
        xs.length == ys.length && (xs.zip ys).all fun (x, y) => agreeUpTo f g fuel x y

/-- Agreement of two trees, which may belong to different forests. -/
def agree (f : Forest) (a : NodeId) (g : Forest) (b : NodeId) : Bool :=
  agreeUpTo f g (f.size + g.size) a b

/-- Agreement of two trees either of which may be missing. -/
def agree? (f : Forest) (a : Option NodeId) (g : Forest) (b : Option NodeId) : Bool :=
  match a, b with
  | none, none => true
  | some a, some b => f.agree a g b
  | _, _ => false

end DualSyntax.Forest
