import DualSyntax.Proofs.Forest.Links
import DualSyntax.Proofs.Semantics.Settling
import Mathlib.Algebra.BigOperators.Group.Finset.Basic
import Mathlib.Algebra.Order.BigOperators.Group.Finset

/-!
# Searches through base lists

The search for a member goes from a type to those in its base list, and so on.  Each node of a base
list belongs to one type and each type is looked at once, so there are no more steps than nodes; the
search ends also where the base lists of types lead in a circle.  What the nodes of a base list mean is
asked while it is known that the list is being worked out.
-/

namespace DualSyntax

namespace Forest

variable {f : Forest}

theorem mem_childIds_of_child? {n c : NodeId} {t : Title} (h : f.child? n t = some c) :
    c ∈ f.childIds n := by
  obtain ⟨slot, hslot, rfl⟩ := Option.map_eq_some_iff.mp h
  exact List.mem_map_of_mem (List.mem_of_find?_eq_some hslot)

/-- The nodes in base lists that belong to none of the types seen. -/
def unseenBases (f : Forest) (seen : List NodeId) : Nat :=
  ∑ n ∈ (Finset.range f.size).filter (· ∉ seen), (f.children n .baseTypes).length

/-- A type that is seen for the first time has its base list among the unseen ones. -/
theorem unseenBases_cons (f : Forest) {seen : List NodeId} {n : NodeId} (h : n ∉ seen) :
    (f.children n .baseTypes).length + f.unseenBases (n :: seen) ≤ f.unseenBases seen := by
  have herase : (Finset.range f.size).filter (· ∉ n :: seen) =
      ((Finset.range f.size).filter (· ∉ seen)).erase n := by
    ext m
    simp only [Finset.mem_filter, Finset.mem_erase, List.mem_cons, not_or]
    tauto
  rw [unseenBases, herase]
  rcases Nat.lt_or_ge n f.size with hlt | hge
  · rw [Finset.add_sum_erase _ (fun n => (f.children n .baseTypes).length) (by simp [hlt, h])]
    rfl
  · have hnone : f.children n .baseTypes = [] := by simp [children, slots_of_size_le hge]
    rw [hnone, List.length_nil, Nat.zero_add]
    exact Finset.sum_le_sum_of_subset (Finset.erase_subset _ _)

theorem WellLinked.unseenBases_le (h : f.WellLinked) : f.unseenBases [] ≤ f.size := by
  have hsub : (List.range f.size).flatMap f.childIds ⊆ List.range f.size := by
    intro c hc
    obtain ⟨p, -, hp⟩ := List.mem_flatMap.mp hc
    exact List.mem_range.mpr (lt_size_of_parent ((h.parent_iff p c).mpr hp))
  have hlength := (h.once.subperm hsub).length_le
  rw [List.length_flatMap, List.length_range] at hlength
  refine Nat.le_trans ?_ hlength
  have hsum : f.unseenBases [] =
      ((List.range f.size).map fun n => (f.children n .baseTypes).length).sum := by
    simp [unseenBases, Finset.sum, Multiset.range]
  rw [hsum]
  refine List.sum_le_sum fun n _ => ?_
  rw [children, childIds, List.length_map, List.length_map]
  exact List.length_filter_le _ _

end Forest

namespace Semantics

variable {w : World} {active : List (Aspect × NodeId)} {answers : Answers}

/-- Type nodes are settled while any base list is worked out that is not yet. -/
def SettlesBases (w : World) (active : List (Aspect × NodeId)) (answers : Answers) : Prop :=
  ∀ n < w.forest.size, (.bases, n) ∉ active → ∀ b scopes,
    Settles w ((.bases, n) :: active) (answers.type b scopes) fun _ => True

theorem settles_typeDefinition (n : NodeId) :
    Settles w active (definitionOf n) fun o => ∀ t, o.bind Definition.type? = some t →
      n < w.forest.size ∧ t.baseTypes = w.forest.children n .baseTypes := by
  refine (settles_definitionOf_eq n).mono fun o ho t ht => ?_
  obtain ⟨d, rfl, htype⟩ := Option.bind_eq_some_iff.mp ht
  obtain hdecl | ⟨-, hnone⟩ := ho d rfl
  · obtain ⟨variant, t', rfl, -, hbases⟩ | ⟨-, hnone⟩ := declared?_cases hdecl
    · cases htype
      exact ⟨lt_size_of_declared? hdecl, hbases⟩
    · rw [hnone] at htype
      cases htype
  · rw [hnone] at htype
    cases htype

theorem settles_typeAt {n : NodeId}
    (h : ∀ scopes, Settles w active (answers.type n scopes) fun _ => True) :
    Settles w active (typeAt answers n) fun _ => True :=
  .bind (settles_scopesAt n) fun scopes _ => .bind (h scopes) fun _ _ => .pure trivial

/-- A base list has at most as many types as nodes. -/
theorem settles_baseTypes (h : SettlesBases w active answers) (n : NodeId) :
    Settles w active (baseTypes answers n) fun ns =>
      ns.length ≤ (w.forest.children n .baseTypes).length := by
  refine .bind (settles_typeDefinition n) fun o ho => ?_
  split
  · exact .pure (Nat.zero_le _)
  · rename_i t ht
    obtain ⟨hn, hbases⟩ := ho t ht
    have hguarded : Settles w active
        (guarded .bases n do return some (← t.baseTypes.mapM (typeAt answers)))
        fun o => (o.getD []).length ≤ (w.forest.children n .baseTypes).length := by
      refine .guarded (Nat.zero_le _) fun hidle => ?_
      refine .bind (.mapM fun b _ => settles_typeAt fun scopes => h n hn hidle b scopes)
        fun types htypes => .pure ?_
      rw [Option.getD_some, htypes.1, hbases]
    refine .bind hguarded fun bases hlength => .pure ?_
    exact Nat.le_trans (List.length_filterMap_le _ _) hlength

/-- Looking through a queue ends if there is fuel for the types in it and all unseen base lists. -/
theorem settles_firstMembers (h : SettlesBases w active answers) (name : String) {fuel : Nat}
    {seen queue : List NodeId} (hfuel : queue.length + w.forest.unseenBases seen < fuel) :
    Settles w active (firstMembers answers name fuel seen queue) (KnownAll w) := by
  induction fuel generalizing seen queue with
  | zero => omega
  | succ fuel ih =>
      cases queue with
      | nil => exact .pure .nil
      | cons n queue =>
          rw [List.length_cons] at hfuel
          rw [firstMembers]
          refine .ite (fun _ => ih (by omega)) fun hseen => ?_
          refine .bind (settles_ownMembers n name) fun found hfound => ?_
          refine .ite (fun _ => ?_) fun _ => .pure hfound
          refine .bind (settles_baseTypes h n) fun bases hbases => ih ?_
          have hnew : n ∉ seen := by simpa using hseen
          have hunseen := w.forest.unseenBases_cons hnew
          rw [List.length_append]
          omega

theorem settles_typeMembers (hf : w.forest.WellLinked) (h : SettlesBases w active answers)
    (n : NodeId) (name : String) : Settles w active (typeMembers answers n name) (KnownAll w) := by
  refine .forest (settles_firstMembers h name ?_)
  have := hf.unseenBases_le
  rw [List.length_singleton]
  omega

/-- Looking through a stack ends if there is fuel for the types in it and all unseen base lists. -/
theorem settles_reaches (h : SettlesBases w active answers) (base : NodeId) {fuel : Nat}
    {seen stack : List NodeId} (hfuel : stack.length + w.forest.unseenBases seen < fuel) :
    Settles w active (reaches answers base fuel seen stack) fun _ => True := by
  induction fuel generalizing seen stack with
  | zero => omega
  | succ fuel ih =>
      cases stack with
      | nil => exact .pure trivial
      | cons n stack =>
          rw [List.length_cons] at hfuel
          rw [reaches]
          refine .ite (fun _ => .pure trivial) fun _ => .ite (fun _ => ih (by omega)) fun hseen => ?_
          refine .bind (settles_baseTypes h n) fun bases hbases => ih ?_
          have hnew : n ∉ seen := by simpa using hseen
          have hunseen := w.forest.unseenBases_cons hnew
          rw [List.length_append, List.length_reverse]
          omega

theorem settles_derivesFrom (hf : w.forest.WellLinked) (h : SettlesBases w active answers)
    (n base : NodeId) : Settles w active (derivesFrom answers n base) fun _ => True := by
  refine .bind (settles_baseTypes h n) fun bases hbases => .forest (settles_reaches h base ?_)
  have hbase := w.forest.unseenBases_cons (List.not_mem_nil (a := n))
  have hall := hf.unseenBases_le
  rw [List.length_reverse]
  omega

theorem settles_lookupIn (hf : w.forest.WellLinked) (h : SettlesBases w active answers)
    (name : String) (scope : Scope) : Settles w active (lookupIn answers name scope) (KnownAll w) := by
  cases scope with
  | block n upto => exact .bind (settles_blockVariable n upto name) fun o ho => .pure (.toList ho)
  | statement n => exact .bind (settles_statementVariable n name) fun o ho => .pure (.toList ho)
  | method n => exact .bind (settles_parameterNamed n name) fun o ho => .pure (.toList ho)
  | type n => exact settles_typeMembers hf h n name
  | ofNamespace d => exact settles_namespaceMembers d name
  | imports n => exact .forest (settles_importedMembers _ name _)
  | compilationUnit n => exact settles_globalMembers n name

/-- What a name stands for in the first scope that has something acceptable to say is found. -/
theorem settles_lookup (hf : w.forest.WellLinked) (h : SettlesBases w active answers)
    (name : String) (accept : Definition → Bool) (scopes : List Scope) :
    Settles w active (lookup answers name accept scopes) fun ds =>
      KnownAll w ds ∧ ∀ d ∈ ds, accept d = true := by
  induction scopes with
  | nil => exact .pure ⟨.nil, by simp⟩
  | cons scope scopes ih =>
      refine .bind (settles_lookupIn hf h name scope) fun found hfound => ?_
      refine .ite (fun _ => ih) fun _ => .pure ⟨hfound.filter accept, fun d hd => ?_⟩
      exact List.of_mem_filter hd

end Semantics

end DualSyntax
