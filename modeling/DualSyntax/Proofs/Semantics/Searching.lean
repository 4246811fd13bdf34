import Mathlib.Data.List.Basic
import Mathlib.Logic.Relation

/-!
# Searches through graphs

A search goes from node to node along lists of successors and looks at no node twice, so it ends also
where they lead in a circle.  What is pending and what was seen are tied by one invariant: the
successors of a node that was seen are seen or pending.  From it follows that a search misses nothing.

A queue looks at nodes level by level.  That it leaves out a node seen before does not change which
node it finds first: the node has nothing to offer and its successors were queued when it was seen.
-/

namespace DualSyntax

namespace Search

variable {α : Type} (next : α → List α) (P : α → Prop)

/-- Something with a property is reached from a node. -/
def Meets (n : α) : Prop := ∃ m, Relation.ReflTransGen (fun a b => b ∈ next a) n m ∧ P m

/-- The nodes at the ends of the walks of a length from some nodes, in the order of the lists. -/
def level (start : List α) : Nat → List α
  | 0 => start
  | k + 1 => (level start k).flatMap next

/-- A node is the first with a property in breadth-first order: no node of a lower level has the
property, and none before it in its own. -/
def IsFirst (start : List α) (n : α) : Prop :=
  ∃ k before after, level next start k = before ++ n :: after ∧ P n ∧ (∀ m ∈ before, ¬ P m) ∧
    ∀ j < k, ∀ m ∈ level next start j, ¬ P m

def Closed (seen pending : List α) : Prop :=
  ∀ n ∈ seen, ¬ P n ∧ ∀ m ∈ next n, m ∈ seen ∨ m ∈ pending

variable {next P}

/-! ## Reaching -/

theorem meets_iff {n : α} : Meets next P n ↔ P n ∨ ∃ m ∈ next n, Meets next P m := by
  constructor
  · rintro ⟨m, hwalk, hm⟩
    rcases Relation.ReflTransGen.cases_head hwalk with rfl | ⟨b, hb, hwalk⟩
    · exact .inl hm
    · exact .inr ⟨b, hb, m, hwalk, hm⟩
  · rintro (h | ⟨b, hb, m, hwalk, hm⟩)
    · exact ⟨n, .refl, h⟩
    · exact ⟨m, .head hb hwalk, hm⟩

/-! ## What was seen -/

namespace Closed

variable {seen pending : List α} {n : α}

theorem nil : Closed next P [] pending := by simp [Closed]

/-- A node that was seen is not looked at again. -/
theorem skip (h : Closed next P seen (n :: pending)) (hn : n ∈ seen) : Closed next P seen pending := by
  refine fun a ha => ⟨(h a ha).1, fun m hm => ?_⟩
  rcases (h a ha).2 m hm with hseen | hpending
  · exact .inl hseen
  · rcases List.mem_cons.mp hpending with rfl | hpending
    · exact .inl hn
    · exact .inr hpending

/-- A node without the property is seen when its successors are pending. -/
theorem see {pending' : List α} (h : Closed next P seen (n :: pending)) (hn : ¬ P n)
    (hnext : ∀ m, m ∈ pending' ↔ m ∈ next n ∨ m ∈ pending) : Closed next P (n :: seen) pending' := by
  intro a ha
  rcases List.mem_cons.mp ha with rfl | ha
  · exact ⟨hn, fun m hm => .inr ((hnext m).mpr (.inl hm))⟩
  · refine ⟨(h a ha).1, fun m hm => ?_⟩
    rcases (h a ha).2 m hm with hseen | hpending
    · exact .inl (List.mem_cons_of_mem _ hseen)
    · rcases List.mem_cons.mp hpending with rfl | hpending
      · exact .inl List.mem_cons_self
      · exact .inr ((hnext m).mpr (.inr hpending))

/-- What is reached from a node that was seen is reached from one that is pending. -/
theorem meets (h : Closed next P seen pending) (hn : n ∈ seen) (hmeets : Meets next P n) :
    ∃ m ∈ pending, Meets next P m := by
  obtain ⟨m, hwalk, hm⟩ := hmeets
  induction hwalk using Relation.ReflTransGen.head_induction_on with
  | refl => exact absurd hm (h m hn).1
  | head hstep hwalk ih =>
      rcases (h _ hn).2 _ hstep with hseen | hpending
      · exact ih hseen
      · exact ⟨_, hpending, m, hwalk, hm⟩

theorem meets_skip (h : Closed next P seen (n :: pending)) (hn : n ∈ seen) :
    (∃ m ∈ n :: pending, Meets next P m) ↔ ∃ m ∈ pending, Meets next P m := by
  constructor
  · rintro ⟨m, hm, hmeets⟩
    rcases List.mem_cons.mp hm with rfl | hm
    · exact (h.skip hn).meets hn hmeets
    · exact ⟨m, hm, hmeets⟩
  · rintro ⟨m, hm, hmeets⟩
    exact ⟨m, List.mem_cons_of_mem _ hm, hmeets⟩

end Closed

theorem meets_see {pending pending' : List α} {n : α} (hn : ¬ P n)
    (hnext : ∀ m, m ∈ pending' ↔ m ∈ next n ∨ m ∈ pending) :
    (∃ m ∈ n :: pending, Meets next P m) ↔ ∃ m ∈ pending', Meets next P m := by
  simp only [List.mem_cons, hnext, or_and_right, exists_or, exists_eq_left]
  rw [meets_iff]
  simp [hn]

/-! ## Level by level -/

theorem level_flatMap (start : List α) (k : Nat) :
    level next (start.flatMap next) k = level next start (k + 1) := by
  induction k with
  | zero => rfl
  | succ k ih => rw [level, ih, level, level, level]

/-- What is first among the successors of some nodes is first among these, if none of them has the
property. -/
theorem IsFirst.later {start : List α} {n : α} (h : IsFirst next P (start.flatMap next) n)
    (hstart : ∀ m ∈ start, ¬ P m) : IsFirst next P start n := by
  obtain ⟨k, before, after, hk, hn, hbefore, hlower⟩ := h
  rw [level_flatMap] at hk
  refine ⟨k + 1, before, after, hk, hn, hbefore, fun j hj m hm => ?_⟩
  cases j with
  | zero => exact hstart m hm
  | succ j => exact hlower j (by omega) m (by rwa [level_flatMap])

variable (next P)

/-- A queue to which the successors of every node are added, also of one seen before, finds a node. -/
inductive Queued : List α → α → Prop
  | here {n : α} {queue : List α} : P n → Queued (n :: queue) n
  | later {n m : α} {queue : List α} : ¬ P n → Queued (queue ++ next n) m → Queued (n :: queue) m

/-- A queue is left of another if nodes are left out that were seen or are kept in front of them. -/
inductive Thins : List α → List α → List α → Prop
  | nil {seen : List α} : Thins seen [] []
  | keep {seen queue kept : List α} {n : α} :
      Thins (n :: seen) queue kept → Thins seen (n :: queue) (n :: kept)
  | drop {seen queue kept : List α} {n : α} :
      n ∈ seen → Thins seen queue kept → Thins seen (n :: queue) kept

variable {next P}

/-- The queue holds the rest of one level and the successors of what was taken from it. -/
theorem Queued.isFirst_split {queue : List α} {n : α} (h : Queued next P queue n) (done rest : List α)
    (hqueue : queue = rest ++ done.flatMap next) (hdone : ∀ m ∈ done, ¬ P m) :
    IsFirst next P (done ++ rest) n := by
  induction h generalizing done rest with
  | @here n queue hn =>
      cases rest with
      | nil =>
          rw [List.nil_append] at hqueue
          have hfirst : IsFirst next P (done.flatMap next) n :=
            ⟨0, [], queue, hqueue.symm, hn, by simp, by simp⟩
          rw [List.append_nil]
          exact hfirst.later hdone
      | cons a rest =>
          obtain ⟨rfl, -⟩ := List.cons.inj hqueue
          exact ⟨0, done, rest, rfl, hn, hdone, by simp⟩
  | @later a n queue ha _ ih =>
      cases rest with
      | nil =>
          rw [List.nil_append] at hqueue
          have hfirst := ih [a] queue (by simp) (by simpa using ha)
          rw [List.append_nil]
          refine IsFirst.later ?_ hdone
          rwa [← hqueue]
      | cons b rest =>
          obtain ⟨rfl, hrest⟩ := List.cons.inj hqueue
          have hdone' : ∀ m ∈ done ++ [a], ¬ P m := by
            intro m hm
            rcases List.mem_append.mp hm with hm | hm
            · exact hdone m hm
            · rwa [List.mem_singleton.mp hm]
          have hfirst := ih (done ++ [a]) rest (by simp [hrest]) hdone'
          rwa [List.append_assoc, List.singleton_append] at hfirst

/-- A queue finds what is first in breadth-first order. -/
theorem Queued.isFirst {start : List α} {n : α} (h : Queued next P start n) :
    IsFirst next P start n :=
  h.isFirst_split [] start (by simp) (by simp)

namespace Thins

variable {seen queue kept : List α}

theorem refl (seen queue : List α) : Thins seen queue queue := by
  induction queue generalizing seen with
  | nil => exact .nil
  | cons n queue ih => exact .keep (ih _)

theorem mono {seen' : List α} (h : Thins seen queue kept) (hseen : seen ⊆ seen') :
    Thins seen' queue kept := by
  induction h generalizing seen' with
  | nil => exact .nil
  | keep _ ih => exact .keep (ih (List.cons_subset_cons _ hseen))
  | drop hn _ ih => exact .drop (hseen hn) (ih hseen)

theorem append (h : Thins seen queue kept) (more : List α) :
    Thins seen (queue ++ more) (kept ++ more) := by
  induction h with
  | nil => exact refl _ _
  | keep _ ih => exact .keep ih
  | drop hn _ ih => exact .drop hn ih

/-- What was seen or is kept may stand once more at the end. -/
theorem append_left (h : Thins seen queue kept) {more : List α}
    (hmore : ∀ n ∈ more, n ∈ seen ∨ n ∈ kept) : Thins seen (queue ++ more) kept := by
  induction h with
  | @nil seen =>
      induction more with
      | nil => exact .nil
      | cons n more ih =>
          have hn : n ∈ seen := by simpa using hmore n List.mem_cons_self
          exact .drop hn (ih fun m hm => hmore m (List.mem_cons_of_mem _ hm))
  | @keep seen queue kept n _ ih =>
      refine .keep (ih fun m hm => ?_)
      rcases hmore m hm with hm | hm
      · exact .inl (List.mem_cons_of_mem _ hm)
      · rcases List.mem_cons.mp hm with rfl | hm
        · exact .inl List.mem_cons_self
        · exact .inr hm
  | drop hn _ ih => exact .drop hn (ih hmore)

/-- The nodes that are left out in front of the first that is kept. -/
theorem split {n : α} (h : Thins seen queue (n :: kept)) : ∃ dropped queue',
    queue = dropped ++ n :: queue' ∧ (∀ m ∈ dropped, m ∈ seen) ∧ Thins (n :: seen) queue' kept := by
  generalize hlist : n :: kept = list at h
  induction h with
  | nil => cases hlist
  | keep h =>
      cases hlist
      exact ⟨[], _, rfl, by simp, h⟩
  | @drop seen queue kept m hm _ ih =>
      obtain ⟨dropped, queue', rfl, hdropped, h⟩ := ih hlist
      refine ⟨m :: dropped, queue', rfl, fun a ha => ?_, h⟩
      rcases List.mem_cons.mp ha with rfl | ha
      · exact hm
      · exact hdropped a ha

end Thins

/-- Nodes without the property are passed, and their successors queued. -/
theorem Queued.pass {dropped queue : List α} {n : α} (hdropped : ∀ m ∈ dropped, ¬ P m)
    (h : Queued next P (queue ++ dropped.flatMap next) n) : Queued next P (dropped ++ queue) n := by
  induction dropped generalizing queue with
  | nil => simpa using h
  | cons a dropped ih =>
      have hpassed : Queued next P (dropped ++ (queue ++ next a)) n := by
        refine ih (fun m hm => hdropped m (List.mem_cons_of_mem _ hm)) ?_
        simpa using h
      rw [← List.append_assoc] at hpassed
      exact .later (hdropped a List.mem_cons_self) hpassed

/-- A queue that leaves out what was seen finds a node, whatever it leaves out. -/
def Found (next : α → List α) (P : α → Prop) (seen kept : List α) (n : α) : Prop :=
  ∀ queue, Thins seen queue kept → Queued next P queue n

namespace Found

variable {seen kept : List α} {n m : α}

theorem here (h : Closed next P seen (n :: kept)) (hn : P n) : Found next P seen (n :: kept) n := by
  intro queue hthins
  obtain ⟨dropped, queue', rfl, hdropped, -⟩ := hthins.split
  exact Queued.pass (fun m hm => (h m (hdropped m hm)).1) (.here hn)

/-- The successors of the nodes that are left out were seen or are kept. -/
theorem pass (h : Closed next P seen (n :: kept)) (hn : ¬ P n)
    (hnext : ∀ queue, Thins (n :: seen) queue kept → Queued next P (queue ++ next n) m) :
    Found next P seen (n :: kept) m := by
  intro queue hthins
  obtain ⟨dropped, queue', rfl, hdropped, hthins'⟩ := hthins.split
  refine Queued.pass (fun a ha => (h a (hdropped a ha)).1) (.later hn ?_)
  refine hnext _ (hthins'.append_left fun a ha => ?_)
  obtain ⟨b, hb, ha⟩ := List.mem_flatMap.mp ha
  rcases (h b (hdropped b hb)).2 a ha with hseen | hkept
  · exact .inl (List.mem_cons_of_mem _ hseen)
  · rcases List.mem_cons.mp hkept with rfl | hkept
    · exact .inl List.mem_cons_self
    · exact .inr hkept

theorem skip (h : Closed next P seen (n :: kept)) (hn : n ∈ seen) (hm : Found next P seen kept m) :
    Found next P seen (n :: kept) m := by
  refine pass h (h n hn).1 fun queue hthins => hm _ ?_
  have hseen : n :: seen ⊆ seen := List.cons_subset.mpr ⟨hn, List.Subset.refl _⟩
  refine (hthins.mono hseen).append_left fun a ha => ?_
  exact (h.skip hn n hn).2 a ha

theorem see (h : Closed next P seen (n :: kept)) (hn : ¬ P n)
    (hm : Found next P (n :: seen) (kept ++ next n) m) : Found next P seen (n :: kept) m :=
  pass h hn fun _ hthins => hm _ (hthins.append _)

theorem isFirst (h : Found next P [] kept n) : IsFirst next P kept n := (h kept (.refl _ _)).isFirst

end Found

end Search

end DualSyntax
