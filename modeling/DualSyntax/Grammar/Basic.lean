import DualSyntax.Grammar.Rule
import DualSyntax.Grammar.Shape

/-!
# Grammars

A grammar gives each of its definitions a name, a rule and a shape.
-/

namespace DualSyntax

/-- A set of definitions.  A definition may lack a rule; it then matches nothing. -/
structure Grammar (δ : Type) where
  /-- All definitions. -/
  definitions : List δ
  name : δ → String
  rule : δ → Option (Rule δ)
  /-- The shape of a match, which may depend on the tokens among its children. -/
  shape : δ → List TokenKind → Shape δ
  /-- Definitions in front of whose matches comments and blank lines are kept. -/
  keepsTrivia : δ → Bool
  /-- The tokens that end statements; shapes look past them. -/
  terminators : List TokenKind := []
  /-- No definition that has a rule is left out of the list. -/
  complete : ∀ d, (rule d).isSome = true → d ∈ definitions

namespace Grammar

variable {δ : Type}

def undefinedNames (g : Grammar δ) : List String :=
  (g.definitions.filter fun d => (g.rule d).isNone).map g.name

def greatestRule (g : Grammar δ) : Nat :=
  (g.definitions.map fun d => (g.rule d).elim 0 Rule.size).foldl max 0

/-- What an entry of a list says about the definition of a name. -/
structure Entry where
  name : String
  rule : Option (Rule Nat) := none
  shape : Option (Shape Nat) := none
  keepsTrivia : Bool := false

/-- The number of the definition that a name stands for: the last entry with that name. -/
def indexIn? (names : List String) (name : String) : Option Nat :=
  (names.reverse.findIdx? (· == name)).map fun i => names.length - 1 - i

/-- What all entries with one name together say; a later rule or shape takes the place of an earlier
one. -/
def settle (entries : List Entry) (name : String) : Entry :=
  (entries.filter (·.name == name)).foldl (fun (found e : Entry) =>
    { name
      rule := e.rule.or found.rule
      shape := e.shape.or found.shape
      keepsTrivia := found.keepsTrivia || e.keepsTrivia }) { name }

/-- The grammar of a list of entries.  Each entry is a definition of its own, but what entries with
one name say holds of the last of them; the others stay without a rule. -/
def ofEntries (entries : List Entry) : Grammar Nat :=
  let names := entries.map (·.name)
  let settled := (names.zipIdx.map fun (name, i) =>
    if indexIn? names name = some i then settle entries name else { name }).toArray
  let entry (d : Nat) : Entry := (settled[d]?).getD { name := "" }
  { definitions := List.range entries.length
    name := fun d => (entry d).name
    rule := fun d => (entry d).rule
    shape := fun d _ => (entry d).shape.getD .forward
    keepsTrivia := fun d => (entry d).keepsTrivia
    complete := by
      intro d hd
      rw [List.mem_range]
      rcases Nat.lt_or_ge d entries.length with hlt | hge
      · exact hlt
      · have hnone : settled[d]? = none := Array.getElem?_eq_none (by simpa [settled, names] using hge)
        simp [entry, hnone] at hd }

end Grammar

end DualSyntax
