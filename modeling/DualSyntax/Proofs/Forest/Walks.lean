import DualSyntax.Forest.Walk
import DualSyntax.Proofs.Forest.Links
import DualSyntax.Proofs.Forest.Roots
import Mathlib.Data.List.Perm.Subperm

/-!
# Walks

A walk is run from a stack of steps that are still to be taken.  In a forest whose links agree it is
the walk by recursion: every step of the stack stands for the rest of a walk, and each node of a tree is
entered once, so the number of steps that a walk may take cuts none off.  The nodes that a walk enters
are those that stand at or below its root.  Upwards, the search for the nodes above a node is bounded,
too, but goes up to a root: first comes the parent, then what is above the parent.
-/

namespace DualSyntax.Forest

variable {f : Forest}

/-! ## Walks by recursion -/

/-- The walk of the tree below a node by recursion, to a bounded depth. -/
def walkUpTo (f : Forest) : Nat → NodeId → List WalkEvent
  | 0, _ => []
  | fuel + 1, n => .enter n :: ((f.childIds n).flatMap (f.walkUpTo fuel) ++ [.leave n])

def entered (events : List WalkEvent) : List NodeId :=
  events.filterMap fun
    | .enter n => some n
    | .leave _ => none

theorem entered_append (xs ys : List WalkEvent) : entered (xs ++ ys) = entered xs ++ entered ys :=
  List.filterMap_append

theorem entered_flatMap (walk : NodeId → List WalkEvent) (ns : List NodeId) :
    entered (ns.flatMap walk) = ns.flatMap fun n => entered (walk n) := by
  induction ns with
  | nil => rfl
  | cons n ns ih => rw [List.flatMap_cons, List.flatMap_cons, entered_append, ih]

/-- A walk leaves every node that it enters, and does nothing else. -/
theorem length_walkUpTo (f : Forest) (fuel : Nat) (n : NodeId) :
    (f.walkUpTo fuel n).length = 2 * (entered (f.walkUpTo fuel n)).length := by
  induction fuel generalizing n with
  | zero => rfl
  | succ fuel ih =>
      have hchildren : ∀ ns : List NodeId, (ns.flatMap (f.walkUpTo fuel)).length =
          2 * (entered (ns.flatMap (f.walkUpTo fuel))).length := by
        intro ns
        induction ns with
        | nil => rfl
        | cons c ns ihs =>
            rw [List.flatMap_cons, entered_append, List.length_append, List.length_append, ih, ihs,
              Nat.mul_add]
      have henters : entered (f.walkUpTo (fuel + 1) n) =
          n :: entered ((f.childIds n).flatMap (f.walkUpTo fuel)) := by
        rw [walkUpTo, ← List.cons_append, entered_append]
        exact List.append_nil _
      rw [henters, walkUpTo]
      simp only [List.length_cons, List.length_append, hchildren, List.length_nil]
      omega

namespace WellLinked

/-- A bound on the depth that is above that of the tree cuts nothing off. -/
theorem walkUpTo_stable (h : f.WellLinked) {a b : Nat} {n : NodeId} (ha : (below f n).card < a)
    (hb : (below f n).card < b) : f.walkUpTo a n = f.walkUpTo b n := by
  induction a generalizing b n with
  | zero => omega
  | succ a ih =>
      obtain ⟨b, rfl⟩ : ∃ k, b = k + 1 := ⟨b - 1, by omega⟩
      have hchildren : (f.childIds n).flatMap (f.walkUpTo a) =
          (f.childIds n).flatMap (f.walkUpTo b) := by
        refine List.flatMap_congr fun c hc => ?_
        have hless := h.card_below_lt hc
        exact ih (by omega) (by omega)
      rw [walkUpTo, walkUpTo, hchildren]

end WellLinked

/-- The walk of the tree below a node by recursion. -/
def fullWalk (f : Forest) (n : NodeId) : List WalkEvent := f.walkUpTo (f.size + 1) n

/-! ## The nodes of a tree -/

namespace WellLinked

variable (h : f.WellLinked)

include h

theorem fullWalk_eq (n : NodeId) :
    f.fullWalk n = .enter n :: ((f.childIds n).flatMap f.fullWalk ++ [.leave n]) := by
  have hchildren : (f.childIds n).flatMap (f.walkUpTo f.size) = (f.childIds n).flatMap f.fullWalk := by
    refine List.flatMap_congr fun c hc => ?_
    have hless := h.card_below_lt hc
    have hle := f.card_below_le n
    exact h.walkUpTo_stable (by omega) (by omega)
  rw [fullWalk, walkUpTo, hchildren]

theorem entered_fullWalk_eq (n : NodeId) :
    entered (f.fullWalk n) = n :: (f.childIds n).flatMap fun c => entered (f.fullWalk c) := by
  rw [h.fullWalk_eq, ← List.cons_append, entered_append, ← entered_flatMap]
  exact List.append_nil _

/-- Induction from the leaves of a tree to its root. -/
theorem childInduction {motive : NodeId → Prop}
    (step : ∀ n, (∀ c ∈ f.childIds n, motive c) → motive n) (n : NodeId) : motive n := by
  induction hcard : (below f n).card using Nat.strong_induction_on generalizing n with
  | _ k ih =>
      subst hcard
      exact step n fun c hc => ih _ (h.card_below_lt hc) c rfl

/-- A walk enters the nodes that stand at or below its root. -/
theorem mem_entered_iff {n m : NodeId} :
    m ∈ entered (f.fullWalk n) ↔ Relation.ReflTransGen f.Below m n := by
  induction n using h.childInduction with
  | step n ih =>
      rw [h.entered_fullWalk_eq, List.mem_cons, List.mem_flatMap]
      constructor
      · rintro (rfl | ⟨c, hc, hm⟩)
        · exact .refl
        · exact .tail ((ih c hc).mp hm) ((h.parent_iff n c).mpr hc)
      · intro hm
        rcases hm.cases_tail with rfl | ⟨c, hmc, hcn⟩
        · exact .inl rfl
        · have hc := (h.parent_iff n c).mp hcn
          exact .inr ⟨c, hc, (ih c hc).mpr hmc⟩

/-- Trees below two children of a node have no node in common. -/
theorem disjoint_entered {n c c' : NodeId} (hc : c ∈ f.childIds n) (hc' : c' ∈ f.childIds n)
    (hne : c ≠ c') : List.Disjoint (entered (f.fullWalk c)) (entered (f.fullWalk c')) := by
  have hunique : Relator.RightUnique f.Below := fun a b b' hb hb' => Option.some.inj (hb.symm.trans hb')
  have hparent := (h.parent_iff n c).mpr hc
  have hparent' := (h.parent_iff n c').mpr hc'
  -- of two nodes above one node, one is above the other; as siblings they are above each other
  have hcycle : ∀ {x y : NodeId}, f.parent x = some n → f.parent y = some n → x ≠ y →
      ¬ Relation.ReflTransGen f.Below x y := by
    intro x y hx hy hxy habove
    rcases habove.cases_head with rfl | ⟨p, hp, hpy⟩
    · exact hxy rfl
    · obtain rfl := Option.some.inj (hx.symm.trans hp)
      exact h.acyclic _ (.tail' hpy hy)
  intro m hm hm'
  rcases Relation.ReflTransGen.total_of_right_unique hunique (h.mem_entered_iff.mp hm)
    (h.mem_entered_iff.mp hm') with habove | habove
  · exact hcycle hparent hparent' hne habove
  · exact hcycle hparent' hparent hne.symm habove

/-- A walk enters every node once. -/
theorem nodup_entered (n : NodeId) : (entered (f.fullWalk n)).Nodup := by
  induction n using h.childInduction with
  | step n ih =>
      rw [h.entered_fullWalk_eq, List.nodup_cons, List.nodup_flatMap]
      refine ⟨fun hmem => ?_, ih, ?_⟩
      · obtain ⟨c, hc, hn⟩ := List.mem_flatMap.mp hmem
        exact h.acyclic n (.tail' (h.mem_entered_iff.mp hn) ((h.parent_iff n c).mpr hc))
      · exact (h.nodup_childIds n).pairwise_of_forall_ne fun c hc c' hc' hne =>
          h.disjoint_entered hc hc' hne

/-- A tree has no more nodes than the forest, but for a root that is no node. -/
theorem length_entered_le (n : NodeId) : (entered (f.fullWalk n)).length ≤ f.size + 1 := by
  have hsubset : (entered (f.fullWalk n)).toFinset ⊆ insert n (Finset.range f.size) := by
    intro m hm
    rw [List.mem_toFinset, h.mem_entered_iff] at hm
    rw [Finset.mem_insert, Finset.mem_range]
    rcases hm.cases_head with rfl | ⟨p, hp, -⟩
    · exact .inl rfl
    · exact .inr (lt_size_of_parent hp)
  calc (entered (f.fullWalk n)).length
      = (entered (f.fullWalk n)).toFinset.card := (List.toFinset_card_of_nodup (h.nodup_entered n)).symm
    _ ≤ (insert n (Finset.range f.size)).card := Finset.card_le_card hsubset
    _ ≤ (Finset.range f.size).card + 1 := Finset.card_insert_le _ _
    _ = f.size + 1 := by rw [Finset.card_range]

end WellLinked

/-! ## Walks from a stack -/

/-- The steps that an entry of the stack stands for. -/
def stepsOf (f : Forest) : WalkEvent → List WalkEvent
  | .enter n => f.fullWalk n
  | .leave n => [.leave n]

namespace WellLinked

variable {f : Forest} (h : f.WellLinked)

include h

/-- A walk from a stack takes all the steps that the entries stand for. -/
theorem walkFrom_eq {fuel : Nat} {stack : List WalkEvent}
    (hfuel : (stack.flatMap f.stepsOf).length ≤ fuel) :
    f.walkFrom fuel stack = stack.flatMap f.stepsOf := by
  induction fuel generalizing stack with
  | zero =>
      rw [walkFrom, List.length_eq_zero_iff.mp (Nat.le_zero.mp hfuel)]
  | succ fuel ih =>
      cases stack with
      | nil => rfl
      | cons event stack =>
          cases event with
          | leave n =>
              rw [List.flatMap_cons, stepsOf] at hfuel ⊢
              rw [walkFrom, ih (Nat.le_of_succ_le_succ hfuel)]
              rfl
          | enter n =>
              have hchildren : (((f.slots n).map fun s => WalkEvent.enter s.2) ++
                  .leave n :: stack).flatMap f.stepsOf =
                    (f.childIds n).flatMap f.fullWalk ++ [.leave n] ++ stack.flatMap f.stepsOf := by
                rw [List.flatMap_append, List.flatMap_cons, stepsOf, List.flatMap_map, childIds,
                  List.flatMap_map, List.append_assoc]
                rfl
              rw [List.flatMap_cons, stepsOf, h.fullWalk_eq, List.cons_append] at hfuel ⊢
              rw [← hchildren] at hfuel ⊢
              rw [walkFrom, ih (Nat.le_of_succ_le_succ hfuel)]

/-- The walk of a tree is the walk by recursion. -/
theorem walk_eq_fullWalk (n : NodeId) : f.walk n = f.fullWalk n := by
  have hlength := f.length_walkUpTo (f.size + 1) n
  have hle := h.length_entered_le n
  rw [fullWalk] at hle
  have hstack : [WalkEvent.enter n].flatMap f.stepsOf = f.fullWalk n := List.append_nil _
  rw [walk, h.walkFrom_eq, hstack]
  rw [hstack, fullWalk]
  omega

/-- The nodes of a tree: the root, then those of the trees below it. -/
theorem descendants_eq (n : NodeId) :
    f.descendants n = n :: (f.childIds n).flatMap f.descendants := by
  have hentered : f.descendants = fun n => entered (f.fullWalk n) :=
    funext fun n => congrArg entered (h.walk_eq_fullWalk n)
  rw [hentered]
  exact h.entered_fullWalk_eq n

/-- They are the nodes that stand at or below the root. -/
theorem mem_descendants_iff {n m : NodeId} :
    m ∈ f.descendants n ↔ Relation.ReflTransGen f.Below m n := by
  rw [← h.mem_entered_iff, ← h.walk_eq_fullWalk]
  rfl

end WellLinked

/-! ## The nodes above a node -/

section Ancestors

variable {n m p : NodeId}

theorem transGen_of_mem_ancestorsUpTo {k : Nat} (h : m ∈ f.ancestorsUpTo k n) :
    Relation.TransGen f.Below n m := by
  induction k generalizing n with
  | zero => cases h
  | succ k ih =>
      rw [ancestorsUpTo] at h
      cases hp : f.parent n with
      | none =>
          rw [hp] at h
          cases h
      | some p =>
          rw [hp] at h
          rcases List.mem_cons.mp h with rfl | h
          · exact .single hp
          · exact .head hp (ih h)

theorem ancestorsUpTo_of_length_lt {k k' : Nat} (h : (f.ancestorsUpTo k n).length < k) (hk : k ≤ k') :
    f.ancestorsUpTo k' n = f.ancestorsUpTo k n := by
  induction k generalizing n k' with
  | zero => cases h
  | succ k ih =>
      obtain ⟨k', rfl⟩ : ∃ i, k' = i + 1 := ⟨k' - 1, by omega⟩
      rw [ancestorsUpTo] at h ⊢
      rw [ancestorsUpTo]
      cases hp : f.parent n with
      | none => rfl
      | some p =>
          simp only [hp, List.length_cons, Nat.add_lt_add_iff_right] at h
          simp only [ih h (Nat.le_of_succ_le_succ hk)]

namespace WellLinked

variable (h : f.WellLinked)

include h

theorem nodup_ancestorsUpTo (k : Nat) (n : NodeId) : (n :: f.ancestorsUpTo k n).Nodup := by
  induction k generalizing n with
  | zero => simp [ancestorsUpTo]
  | succ k ih =>
      refine List.nodup_cons.mpr ⟨fun hmem => h.acyclic n (transGen_of_mem_ancestorsUpTo hmem), ?_⟩
      rw [ancestorsUpTo]
      cases f.parent n with
      | none => exact .nil
      | some p => exact ih p

theorem lt_of_mem_ancestorsUpTo {k : Nat} (hm : m ∈ f.ancestorsUpTo k n) : m < f.size := by
  obtain ⟨c, -, hc⟩ := Relation.TransGen.tail'_iff.mp (transGen_of_mem_ancestorsUpTo hm)
  exact h.parent_lt hc

theorem length_ancestorsUpTo_lt (hn : n < f.size) (k : Nat) :
    (f.ancestorsUpTo k n).length < f.size := by
  have hsubset : n :: f.ancestorsUpTo k n ⊆ List.range f.size := by
    intro m hm
    rcases List.mem_cons.mp hm with rfl | hm
    · exact List.mem_range.mpr hn
    · exact List.mem_range.mpr (h.lt_of_mem_ancestorsUpTo hm)
  have hle := ((h.nodup_ancestorsUpTo k n).subperm hsubset).length_le
  rwa [List.length_cons, List.length_range] at hle

/-- Above a node stand its parent and what is above the parent. -/
theorem ancestors_of_parent (hp : f.parent n = some p) : f.ancestors n = p :: f.ancestors p := by
  have hn : n < f.size := lt_size_of_parent hp
  obtain ⟨k, hk⟩ := Nat.exists_eq_succ_of_ne_zero (Nat.ne_zero_of_lt hn)
  have hlength := h.length_ancestorsUpTo_lt hn (k + 1)
  rw [ancestorsUpTo, hp, hk, List.length_cons, Nat.add_lt_add_iff_right] at hlength
  rw [ancestors, ancestors, hk, ancestorsUpTo, hp, ancestorsUpTo_of_length_lt hlength (Nat.le_succ k)]

theorem parent_of_ancestors {ns : List NodeId} (hn : f.ancestors n = p :: ns) :
    f.parent n = some p ∧ f.ancestors p = ns := by
  cases hp : f.parent n with
  | none =>
      rw [ancestors_of_parent_none hp] at hn
      cases hn
  | some p =>
      rw [h.ancestors_of_parent hp] at hn
      cases hn
      exact ⟨rfl, rfl⟩

end WellLinked

end Ancestors

end DualSyntax.Forest
