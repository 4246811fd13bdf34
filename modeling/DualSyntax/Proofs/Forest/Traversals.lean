import DualSyntax.Proofs.Forest.Walks

/-!
# Traversals

The loop behind a walk takes a step off its stack for as long as there is one, and nothing bounds it
but the tree.  `Unwinds` is this loop without a bound.  In a forest whose links agree it comes to an
end from every stack, what it yields from the stack of a root is the walk of the tree below the root,
and there the nodes are entered and left like brackets are opened and closed.
-/

namespace DualSyntax

/-- The loop of a walk runs until the stack is empty and yields these steps. -/
inductive Forest.Unwinds (f : Forest) : List WalkEvent → List WalkEvent → Prop
  | done : f.Unwinds [] []
  | leave {n : NodeId} {stack events : List WalkEvent} (rest : f.Unwinds stack events) :
      f.Unwinds (.leave n :: stack) (.leave n :: events)
  | enter {n : NodeId} {stack events : List WalkEvent}
      (rest : f.Unwinds ((f.slots n).map (fun s => .enter s.2) ++ .leave n :: stack) events) :
      f.Unwinds (.enter n :: stack) (.enter n :: events)

/-- Steps in which every node that is entered is left again, after the nodes entered within it. -/
inductive WalkEvent.Nested : List WalkEvent → Prop
  | nil : Nested []
  | node (n : NodeId) {inner rest : List WalkEvent} (hinner : Nested inner) (hrest : Nested rest) :
      Nested (.enter n :: (inner ++ .leave n :: rest))

open WalkEvent

namespace WalkEvent.Nested

theorem append {xs ys : List WalkEvent} (hxs : Nested xs) (hys : Nested ys) : Nested (xs ++ ys) := by
  induction hxs with
  | nil => exact hys
  | node n hinner _ _ ih =>
      rw [List.cons_append, List.append_assoc, List.cons_append]
      exact .node n hinner ih

theorem flatMap {walk : NodeId → List WalkEvent} {ns : List NodeId}
    (h : ∀ n ∈ ns, Nested (walk n)) : Nested (ns.flatMap walk) := by
  induction ns with
  | nil => exact .nil
  | cons n ns ih =>
      exact (h n List.mem_cons_self).append (ih fun c hc => h c (List.mem_cons_of_mem n hc))

theorem count_leave {events : List WalkEvent} (h : Nested events) (m : NodeId) :
    events.count (WalkEvent.leave m) = events.count (WalkEvent.enter m) := by
  induction h with
  | nil => rfl
  | node n _ _ ihinner ihrest =>
      simp only [List.count_cons, List.count_append, ihinner, ihrest, beq_iff_eq, reduceCtorEq,
        if_false, leave.injEq, enter.injEq]
      omega

end WalkEvent.Nested

namespace Forest

variable {f : Forest}

theorem count_entered (events : List WalkEvent) (m : NodeId) :
    (entered events).count m = events.count (WalkEvent.enter m) := by
  induction events with
  | nil => rfl
  | cons event events ih =>
      cases event with
      | enter n =>
          have hentered : entered (.enter n :: events) = n :: entered events := rfl
          rw [hentered, List.count_cons, List.count_cons, ih]
          simp only [beq_iff_eq, enter.injEq]
      | leave n =>
          rw [List.count_cons_of_ne (by simp), ← ih]
          rfl

/-! ## The loop of a walk -/

/-- The stack alone determines what the loop yields. -/
theorem Unwinds.unique {stack events events' : List WalkEvent} (h : f.Unwinds stack events)
    (h' : f.Unwinds stack events') : events = events' := by
  induction h generalizing events' with
  | done =>
      cases h'
      rfl
  | leave _ ih =>
      cases h' with
      | leave rest => rw [ih rest]
  | enter _ ih =>
      cases h' with
      | enter rest => rw [ih rest]

namespace WellLinked

variable (h : f.WellLinked)

include h

/-- On top of a stack that unwinds, so does a node, which adds its walk. -/
theorem unwinds_enter (n : NodeId) {stack events : List WalkEvent} (hstack : f.Unwinds stack events) :
    f.Unwinds (.enter n :: stack) (f.fullWalk n ++ events) := by
  induction n using h.childInduction generalizing stack events with
  | step n ih =>
      have hchildren : ∀ ns : List NodeId, (∀ c ∈ ns, c ∈ f.childIds n) →
          f.Unwinds (ns.map .enter ++ .leave n :: stack)
            (ns.flatMap f.fullWalk ++ .leave n :: events) := by
        intro ns hns
        induction ns with
        | nil => exact .leave hstack
        | cons c ns ihs =>
            rw [List.flatMap_cons, List.append_assoc]
            exact ih c (hns c List.mem_cons_self)
              (ihs fun c' hc' => hns c' (List.mem_cons_of_mem c hc'))
      rw [h.fullWalk_eq, List.cons_append, List.append_assoc]
      refine .enter ?_
      have hmap : (f.slots n).map (fun s => WalkEvent.enter s.2) = (f.childIds n).map .enter :=
        (List.map_map ..).symm
      rw [hmap]
      exact hchildren _ fun _ hc => hc

/-- The loop ends from every stack, after the steps that the entries stand for. -/
theorem unwinds (stack : List WalkEvent) : f.Unwinds stack (stack.flatMap f.stepsOf) := by
  induction stack with
  | nil => exact .done
  | cons event stack ih =>
      cases event with
      | leave n => exact .leave ih
      | enter n => exact h.unwinds_enter n ih

/-! ## The walk of a tree -/

theorem unwinds_walk (n : NodeId) : f.Unwinds [.enter n] (f.walk n) := by
  have hunwinds := h.unwinds_enter n .done
  rwa [List.append_nil, ← h.walk_eq_fullWalk] at hunwinds

theorem walk_eq (n : NodeId) :
    f.walk n = .enter n :: ((f.slots n).flatMap (fun s => f.walk s.2) ++ [.leave n]) := by
  have hwalk : f.walk = f.fullWalk := funext h.walk_eq_fullWalk
  rw [hwalk, h.fullWalk_eq, childIds, List.flatMap_map]

theorem nested_walk (n : NodeId) : Nested (f.walk n) := by
  induction n using h.childInduction with
  | step n ih =>
      rw [h.walk_eq]
      rw [← List.flatMap_map]
      exact .node n (.flatMap ih) .nil

theorem count_enter_walk {root m : NodeId} (hm : Relation.ReflTransGen f.Below m root) :
    (f.walk root).count (.enter m) = 1 := by
  rw [← count_entered, h.walk_eq_fullWalk]
  exact List.count_eq_one_of_mem (h.nodup_entered root) (h.mem_entered_iff.mpr hm)

theorem below_of_enter_mem {root m : NodeId} (hm : .enter m ∈ f.walk root) :
    Relation.ReflTransGen f.Below m root := by
  rw [h.walk_eq_fullWalk] at hm
  exact h.mem_entered_iff.mp (List.mem_filterMap.mpr ⟨_, hm, rfl⟩)

theorem below_of_leave_mem {root m : NodeId} (hm : .leave m ∈ f.walk root) :
    Relation.ReflTransGen f.Below m root := by
  refine h.below_of_enter_mem (List.count_pos_iff.mp ?_)
  rw [← (h.nested_walk root).count_leave m]
  exact List.count_pos_iff.mpr hm

theorem not_below_of_above {root m : NodeId} (hm : Relation.TransGen f.Below root m) :
    ¬ Relation.ReflTransGen f.Below m root :=
  fun hbelow => h.acyclic root (hm.trans_left hbelow)

theorem not_below_of_sibling {root m : NodeId} (hne : m ≠ root) (hm : f.parent m = f.parent root) :
    ¬ Relation.ReflTransGen f.Below m root := by
  intro hbelow
  rcases hbelow.cases_head with rfl | ⟨p, hp, hbelow⟩
  · exact hne rfl
  · exact h.not_below_of_above (.single (hm.symm.trans hp)) hbelow

/-- **The walk is the traversal by recursion.**  The loop from the stack of a root ends, and what it
yields enters the root, walks what hangs on it in order and leaves it.  Steps are nested; the nodes at
or below the root are entered once and left once, and no others are met, neither a node above the root
nor one beside it. -/
theorem walk_traverses (root : NodeId) :
    (∀ events, f.Unwinds [.enter root] events ↔ events = f.walk root) ∧
      f.walk root =
        .enter root :: ((f.slots root).flatMap (fun s => f.walk s.2) ++ [.leave root]) ∧
      Nested (f.walk root) ∧
      (∀ m, Relation.ReflTransGen f.Below m root →
        (f.walk root).count (.enter m) = 1 ∧ (f.walk root).count (.leave m) = 1) ∧
      (∀ m, ¬ Relation.ReflTransGen f.Below m root →
        .enter m ∉ f.walk root ∧ .leave m ∉ f.walk root) ∧
      ∀ m, Relation.TransGen f.Below root m ∨ m ≠ root ∧ f.parent m = f.parent root →
        .enter m ∉ f.walk root ∧ .leave m ∉ f.walk root := by
  have houtside : ∀ m, ¬ Relation.ReflTransGen f.Below m root →
      .enter m ∉ f.walk root ∧ .leave m ∉ f.walk root := fun m hm =>
    ⟨fun hmem => hm (h.below_of_enter_mem hmem), fun hmem => hm (h.below_of_leave_mem hmem)⟩
  refine ⟨fun events => ⟨fun hevents => hevents.unique (h.unwinds_walk root), ?_⟩, h.walk_eq root,
    h.nested_walk root, fun m hm => ?_, houtside, ?_⟩
  · rintro rfl
    exact h.unwinds_walk root
  · exact ⟨h.count_enter_walk hm, (h.nested_walk root).count_leave m ▸ h.count_enter_walk hm⟩
  · rintro m (habove | ⟨hne, hm⟩)
    · exact houtside m (h.not_below_of_above habove)
    · exact houtside m (h.not_below_of_sibling hne hm)

end WellLinked

/-- A block with two blocks in it, the first of which holds a statement. -/
def siblingBlocks : Forest :=
  performAll {} [.allocate .blockStatement {}, .allocate .blockStatement {},
    .allocate .emptyStatement {}, .allocate .blockStatement {}, .append 0 .statements 1,
    .append 1 .statements 2, .append 0 .statements 3]

/-- The walk of the first of the two blocks meets neither the block around it nor the one beside it. -/
theorem walk_traverses_siblingBlocks :
    siblingBlocks.WellLinked ∧
      siblingBlocks.walk 1 = [.enter 1, .enter 2, .leave 2, .leave 1] ∧
      siblingBlocks.Unwinds [.enter 1] (siblingBlocks.walk 1) ∧
      Nested (siblingBlocks.walk 1) ∧ .enter 0 ∉ siblingBlocks.walk 1 ∧
      .enter 3 ∉ siblingBlocks.walk 1 := by
  have hlinked : siblingBlocks.WellLinked := WellLinked.empty.performAll _
  obtain ⟨hunwinds, -, hnested, -, -, houtside⟩ := hlinked.walk_traverses 1
  have habove : Relation.TransGen siblingBlocks.Below 1 0 :=
    .single (show siblingBlocks.parent 1 = some 0 by decide)
  exact ⟨hlinked, by decide, (hunwinds _).mpr rfl, hnested, (houtside 0 (.inl habove)).1,
    (houtside 3 (.inr (by decide))).1⟩

end Forest

end DualSyntax
