import DualSyntax.Grammar.RawTree
import Std.Data.TreeMap

/-!
# Charts

A chart holds what is known of the definitions of a grammar at the positions of a token stream:
nothing, that the definition is being matched there, or its answer.
-/

namespace DualSyntax.Packrat

inductive Status (δ : Type) where
  /-- The definition is being matched. -/
  | matching
  /-- The tree of the match and the position after it, or a failure. -/
  | answered (answer : Option (RawTree δ × Nat))
deriving Inhabited

structure Chart (δ : Type) where
  /-- For each position the definitions tried there, latest first. -/
  rows : Std.TreeMap Nat (List (δ × Status δ)) := {}

namespace Chart

variable {δ : Type} [BEq δ]

def get? (c : Chart δ) (d : δ) (pos : Nat) : Option (Status δ) := (c.rows.getD pos []).lookup d

/-- Notes what is known of a definition at a position from now on. -/
def set (c : Chart δ) (d : δ) (pos : Nat) (status : Status δ) : Chart δ :=
  ⟨c.rows.insert pos ((d, status) :: c.rows.getD pos [])⟩

@[simp] theorem get?_empty (d : δ) (pos : Nat) : ({} : Chart δ).get? d pos = none := by
  simp [get?]

@[simp] theorem get?_set_self [LawfulBEq δ] (c : Chart δ) (d : δ) (pos : Nat)
    (status : Status δ) : (c.set d pos status).get? d pos = some status := by
  simp [get?, set]

theorem get?_set_of_ne [LawfulBEq δ] (c : Chart δ) {d e : δ} {pos p : Nat} (status : Status δ)
    (h : (d, pos) ≠ (e, p)) : (c.set d pos status).get? e p = c.get? e p := by
  by_cases hpos : pos = p
  · subst hpos
    have hne : (e == d) = false := by
      rw [beq_eq_false_iff_ne]
      rintro rfl
      exact h rfl
    simp [get?, set, List.lookup_cons, hne]
  · simp [get?, set, Std.TreeMap.getD_insert, hpos]

end Chart

end DualSyntax.Packrat
