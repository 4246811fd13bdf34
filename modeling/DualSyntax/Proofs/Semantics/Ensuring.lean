import DualSyntax.Proofs.Semantics.Resolving

/-!
# What questions ensure

A question that agrees with itself and is settled has one answer while the same things are being worked
out, whatever spellings are remembered.  What the answers of other questions have in common is said
step by step along the questions that they are made of; that there is an answer is said apart.
-/

namespace DualSyntax.Semantics

variable {α β : Type} {w : World} {active : List (Aspect × NodeId)}

/-- All answers to a question have a property, whatever spellings are remembered. -/
def Ensures (w : World) (active : List (Aspect × NodeId)) (ask : Ask α) (P : α → Prop) : Prop :=
  ∀ m a m', m.Spells w → m.active = active → ask w m = some (a, m') →
    P a ∧ m'.Spells w ∧ m'.active = active

/-- A question has an answer, and the same whatever spellings are remembered. -/
def HasAnswer (w : World) (active : List (Aspect × NodeId)) (ask : Ask α) (a : α) : Prop :=
  ∀ m : Memory, m.Spells w → m.active = active →
    ∃ m', ask w m = some (a, m') ∧ m'.Spells w ∧ m'.active = active

/-- A question may be answered in a way, for spellings that may be remembered. -/
def MayAnswer (w : World) (active : List (Aspect × NodeId)) (ask : Ask α) (a : α) : Prop :=
  ∃ m m' : Memory, m.Spells w ∧ m.active = active ∧ ask w m = some (a, m')

/-- The answer to a question while some things are being worked out and no spelling is remembered. -/
def answer? (w : World) (active : List (Aspect × NodeId)) (ask : Ask α) : Option α :=
  (ask w ⟨[], active⟩).map (·.1)

theorem Memory.spells_nil (w : World) (active : List (Aspect × NodeId)) :
    Memory.Spells w ⟨[], active⟩ := by
  simp [Memory.Spells]

namespace Ensures

variable {ask : Ask α} {P : α → Prop} {Q : β → Prop}

theorem pure {a : α} (h : P a) : Ensures w active (Pure.pure a) P := by
  intro m b m' hm hactive hrun
  cases hrun
  exact ⟨h, hm, hactive⟩

theorem failure : Ensures w active (Alternative.failure : Ask α) P := by
  intro m a m' hm hactive hrun
  cases hrun

theorem bind {next : α → Ask β} (h : Ensures w active ask P)
    (hnext : ∀ a, P a → Ensures w active (next a) Q) : Ensures w active (ask >>= next) Q := by
  intro m b m'' hm hactive hrun
  obtain ⟨⟨a, m'⟩, ha, hb⟩ := Option.bind_eq_some_iff.mp hrun
  obtain ⟨hP, hm', hactive'⟩ := h m a m' hm hactive ha
  exact hnext a hP m' b m'' hm' hactive' hb

theorem forest {next : Forest → Ask β} (h : Ensures w active (next w.forest) Q) :
    Ensures w active (Semantics.forest >>= next) Q := h

theorem ite {c : Prop} [Decidable c] {other : Ask α} (h : c → Ensures w active ask P)
    (hother : ¬ c → Ensures w active other P) : Ensures w active (if c then ask else other) P := by
  by_cases hc : c
  · rw [if_pos hc]
    exact h hc
  · rw [if_neg hc]
    exact hother hc

theorem mapM {γ : Type} {ask : γ → Ask α} {R : γ → α → Prop} {xs : List γ}
    (h : ∀ x ∈ xs, Ensures w active (ask x) (R x)) :
    Ensures w active (xs.mapM ask) (List.Forall₂ R xs) := by
  induction xs with
  | nil => exact .pure .nil
  | cons x xs ih =>
      rw [List.forall_mem_cons] at h
      rw [List.mapM_cons]
      exact h.1.bind fun a ha => (ih h.2).bind fun as has => .pure (.cons ha has)

theorem mono {P' : α → Prop} (h : Ensures w active ask P) (himp : ∀ a, P a → P' a) :
    Ensures w active ask P' := by
  intro m a m' hm hactive hrun
  obtain ⟨hP, hrest⟩ := h m a m' hm hactive hrun
  exact ⟨himp a hP, hrest⟩

theorem mayAnswer (h : Ensures w active ask P) :
    Ensures w active ask fun a => P a ∧ MayAnswer w active ask a := by
  intro m a m' hm hactive hrun
  obtain ⟨hP, hrest⟩ := h m a m' hm hactive hrun
  exact ⟨⟨hP, m, m', hm, hactive, hrun⟩, hrest⟩

/-- What a question ensures holds of the answer that it has. -/
theorem exists_answer {P' : α → Prop} (h : Ensures w active ask P) (hsettles : Settles w active ask P')
    {m : Memory} (hm : m.Spells w) (hactive : m.active = active) :
    ∃ a m', ask w m = some (a, m') ∧ P a := by
  obtain ⟨spellings, active'⟩ := m
  subst hactive
  obtain ⟨a, spellings', hrun, -⟩ := hsettles spellings
  exact ⟨a, _, hrun, (h _ _ _ hm rfl hrun).1⟩

end Ensures

namespace HasAnswer

variable {ask : Ask α} {a b : α}

theorem pure (a : α) : HasAnswer w active (Pure.pure a) a := fun m hm hactive => ⟨m, rfl, hm, hactive⟩

theorem bind {next : α → Ask β} {b : β} (h : HasAnswer w active ask a)
    (hnext : HasAnswer w active (next a) b) : HasAnswer w active (ask >>= next) b := by
  intro m hm hactive
  obtain ⟨m', hrun, hm', hactive'⟩ := h m hm hactive
  obtain ⟨m'', hrun', hm'', hactive''⟩ := hnext m' hm' hactive'
  refine ⟨m'', ?_, hm'', hactive''⟩
  change (ask w m).bind _ = _
  rw [hrun]
  exact hrun'

theorem exists_bind {next : α → Ask β} {P : β → Prop} (h : HasAnswer w active ask a)
    (hnext : ∃ b, HasAnswer w active (next a) b ∧ P b) :
    ∃ b, HasAnswer w active (ask >>= next) b ∧ P b := by
  obtain ⟨b, hb, hP⟩ := hnext
  exact ⟨b, h.bind hb, hP⟩

theorem ensures (h : HasAnswer w active ask a) : Ensures w active ask (· = a) := by
  intro m b m' hm hactive hrun
  obtain ⟨m'', hrun', hm'', hactive''⟩ := h m hm hactive
  rw [hrun] at hrun'
  cases hrun'
  exact ⟨rfl, hm'', hactive''⟩

theorem of_ensures {P : α → Prop} (h : HasAnswer w active ask a) (hensures : Ensures w active ask P) :
    P a := by
  obtain ⟨m', hrun, -⟩ := h ⟨[], active⟩ (Memory.spells_nil w active) rfl
  exact (hensures _ a m' (Memory.spells_nil w active) rfl hrun).1

theorem answer?_eq (h : HasAnswer w active ask a) : answer? w active ask = some a := by
  obtain ⟨m', hrun, -⟩ := h ⟨[], active⟩ (Memory.spells_nil w active) rfl
  rw [answer?, hrun, Option.map_some]

/-- A question has no second answer. -/
theorem unique (h : HasAnswer w active ask a) (h' : HasAnswer w active ask b) : a = b := by
  rw [← Option.some.injEq, ← h.answer?_eq, h'.answer?_eq]

end HasAnswer

/-- What a question that is settled answers is related to what it answers with no spelling remembered,
if it agrees with itself so far. -/
theorem Settles.exists_ensures {ask : Ask α} {P : α → Prop} {R : α → α → Prop}
    (h : Settles w active ask P) (hagree : Agree w R ask ask) :
    ∃ a, answer? w active ask = some a ∧ P a ∧ Ensures w active ask (R a) := by
  obtain ⟨a, spellings, hrun, ha⟩ := h []
  refine ⟨a, by rw [answer?, hrun, Option.map_some], ha, fun m b m' hm hactive hrun' => ?_⟩
  have hrel := hagree ⟨[], active⟩ m ⟨hactive.symm, Memory.spells_nil w active, hm⟩
  rw [hrun, hrun'] at hrel
  cases hrel with
  | some hrel => exact ⟨hrel.1, hrel.2.right, hrel.2.active.symm⟩

theorem Settles.exists_hasAnswer {ask : Ask α} {P : α → Prop} (h : Settles w active ask P)
    (hagree : Agree w Eq ask ask) : ∃ a, HasAnswer w active ask a ∧ P a := by
  obtain ⟨a, -, ha, hensures⟩ := h.exists_ensures hagree
  refine ⟨a, fun m hm hactive => ?_, ha⟩
  obtain ⟨spellings, active'⟩ := m
  subst hactive
  obtain ⟨b, spellings', hrun, -⟩ := h spellings
  obtain ⟨rfl, hspells, hactive⟩ := hensures _ _ _ hm rfl hrun
  exact ⟨_, hrun, hspells, hactive⟩

end DualSyntax.Semantics
