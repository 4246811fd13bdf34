import DualSyntax.Forest.Agree

/-!
# Forests with the same nodes

Structural agreement looks at kinds and slots only.  Two forests that have the same of both agree at
every node, wherever in their sources the nodes stand.  The one kind that may disagree with itself
is a literal that is not a number.
-/

namespace DualSyntax

theorem NodeKind.identifier_agrees (name : String) :
    (NodeKind.identifier name).agrees (.identifier name) = true := by
  have h : (NodeKind.identifier name).agrees (.identifier name) = (name == name) := rfl
  rw [h, BEq.rfl]

namespace Forest

variable {f g : Forest}

def links (f : Forest) : List (NodeKind × List (Title × NodeId)) :=
  f.nodes.toList.map fun d => (d.kind, d.slots)

theorem data_eq_of_links (h : f.links = g.links) (n : NodeId) :
    (f.data n).kind = (g.data n).kind ∧ (f.data n).slots = (g.data n).slots := by
  have hn : (f.nodes[n]?).map (fun d => (d.kind, d.slots)) =
      (g.nodes[n]?).map (fun d => (d.kind, d.slots)) := by
    simpa [links] using congrArg (·[n]?) h
  unfold data
  cases hf : f.nodes[n]? with
  | none =>
      cases hg : g.nodes[n]? with
      | none => exact ⟨rfl, rfl⟩
      | some d' => simp [hf, hg] at hn
  | some d =>
      cases hg : g.nodes[n]? with
      | none => simp [hf, hg] at hn
      | some d' => simpa [hf, hg] using hn

theorem kind_agrees_self (h : ∀ d ∈ f.nodes, d.kind.agrees d.kind = true) (n : NodeId) :
    (f.kind n).agrees (f.kind n) = true := by
  unfold kind data
  cases hn : f.nodes[n]? with
  | none => rfl
  | some d => exact h d (Array.mem_of_getElem? hn)

theorem agreeUpTo_of_links (h : f.links = g.links)
    (hkinds : ∀ d ∈ f.nodes, d.kind.agrees d.kind = true) (fuel : Nat) (n : NodeId) :
    agreeUpTo f g fuel n n = true := by
  have hkind (n : NodeId) : (f.kind n).agrees (g.kind n) = true := by
    have hg : g.kind n = f.kind n := (data_eq_of_links h n).1.symm
    rw [hg]
    exact kind_agrees_self hkinds n
  have hchildren (n : NodeId) (t : Title) : g.children n t = f.children n t := by
    have hslots : g.slots n = f.slots n := (data_eq_of_links h n).2.symm
    rw [children, children, hslots]
  induction fuel generalizing n with
  | zero => exact hkind n
  | succ fuel ih =>
      rw [agreeUpTo, hkind n, Bool.true_and, List.all_eq_true]
      intro t _
      simp only [hchildren, List.zip_eq_zipWith, List.zipWith_self, BEq.rfl, Bool.true_and,
        List.all_map, List.all_eq_true]
      intro c _
      exact ih c

theorem agree_of_links (h : f.links = g.links)
    (hkinds : ∀ d ∈ f.nodes, d.kind.agrees d.kind = true) (n : NodeId) :
    f.agree n g n = true :=
  agreeUpTo_of_links h hkinds _ n

end Forest

end DualSyntax
