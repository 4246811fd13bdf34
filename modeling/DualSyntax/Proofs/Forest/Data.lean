import DualSyntax.Forest.Edit

/-!
# What edits do to single nodes

Every edit of a forest is made of a few changes of single nodes.  These lemmas say, node by node,
what each of them does to kinds, places, parents and slots; later proofs read the forest through
them and open no edit.
-/

namespace DualSyntax.Forest

variable {f : Forest}

def childIds (f : Forest) (n : NodeId) : List NodeId := (f.slots n).map (·.2)

theorem child?_eq_head? (f : Forest) (n : NodeId) (t : Title) :
    f.child? n t = (f.children n t).head? := by
  rw [child?, children, List.head?_map, List.head?_filter]

theorem mem_childIds_of_mem_children {n c : NodeId} {t : Title} (h : c ∈ f.children n t) :
    c ∈ f.childIds n := by
  obtain ⟨slot, hslot, rfl⟩ := List.mem_map.mp h
  exact List.mem_map_of_mem (List.mem_filter.mp hslot).1

theorem data_of_size_le {n : NodeId} (h : f.size ≤ n) : f.data n = { kind := .blankLine } := by
  rw [data, Array.getElem?_eq_none h, Option.getD_none]

theorem parent_of_size_le {n : NodeId} (h : f.size ≤ n) : f.parent n = none := by
  rw [parent, data_of_size_le h]

theorem slots_of_size_le {n : NodeId} (h : f.size ≤ n) : f.slots n = [] := by
  rw [slots, data_of_size_le h]

theorem lt_size_of_parent {c p : NodeId} (h : f.parent c = some p) : c < f.size := by
  rcases Nat.lt_or_ge c f.size with hlt | hge
  · exact hlt
  · rw [parent_of_size_le hge] at h
    cases h

theorem lt_size_of_mem_childIds {p c : NodeId} (h : c ∈ f.childIds p) : p < f.size := by
  rcases Nat.lt_or_ge p f.size with hlt | hge
  · exact hlt
  · rw [childIds, slots_of_size_le hge] at h
    cases h

/-! ## Adding and changing nodes -/

@[simp] theorem size_modify (f : Forest) (n : NodeId) (g : NodeData → NodeData) :
    (f.modify n g).size = f.size := by
  simp [modify, size]

theorem data_modify_self {n : NodeId} (h : n < f.size) (g : NodeData → NodeData) :
    (f.modify n g).data n = g (f.data n) := by
  obtain ⟨d, hget⟩ : ∃ d, f.nodes[n]? = some d := ⟨_, Array.getElem?_eq_getElem h⟩
  simp [data, modify, Array.getElem?_modify, hget]

theorem data_modify_of_ne {n m : NodeId} (h : m ≠ n) (g : NodeData → NodeData) :
    (f.modify n g).data m = f.data m := by
  simp [data, modify, Array.getElem?_modify, h.symm]

@[simp] theorem size_allocate (f : Forest) (kind : NodeKind) (range : TextRange) :
    (f.allocate kind range).2.size = f.size + 1 := by
  simp [allocate, size]

@[simp] theorem allocate_fst (f : Forest) (kind : NodeKind) (range : TextRange) :
    (f.allocate kind range).1 = f.size := rfl

theorem data_allocate_self (f : Forest) (kind : NodeKind) (range : TextRange) :
    (f.allocate kind range).2.data f.size = { kind, range } := by
  simp [data, allocate, size]

theorem data_allocate_of_ne {n : NodeId} (h : n ≠ f.size) (kind : NodeKind) (range : TextRange) :
    (f.allocate kind range).2.data n = f.data n := by
  have hpush : (f.nodes.push { kind, range })[n]? = f.nodes[n]? := by
    rw [Array.getElem?_push]
    exact if_neg h
  simp only [data, allocate, hpush]

@[simp] theorem parent_allocate (f : Forest) (kind : NodeKind) (range : TextRange) (n : NodeId) :
    (f.allocate kind range).2.parent n = f.parent n := by
  by_cases h : n = f.size
  · subst h
    rw [parent, data_allocate_self, parent_of_size_le (Nat.le_refl _)]
  · rw [parent, data_allocate_of_ne h, parent]

@[simp] theorem slots_allocate (f : Forest) (kind : NodeKind) (range : TextRange) (n : NodeId) :
    (f.allocate kind range).2.slots n = f.slots n := by
  by_cases h : n = f.size
  · subst h
    rw [slots, data_allocate_self, slots_of_size_le (Nat.le_refl _)]
  · rw [slots, data_allocate_of_ne h, slots]

/-! ## Taking a node out of its parent -/

theorem parent_modify_clear {o : NodeId} (m : NodeId) :
    (f.modify o ({ · with parent := none })).parent m =
      if m = o then none else f.parent m := by
  by_cases h : m = o
  · subst h
    rw [if_pos rfl]
    rcases Nat.lt_or_ge m f.size with hlt | hge
    · rw [parent, data_modify_self hlt]
    · exact parent_of_size_le (by rwa [size_modify])
  · rw [if_neg h, parent, data_modify_of_ne h, parent]

/-- A change that leaves the slots of a node alone leaves all slots alone. -/
theorem slots_modify {o : NodeId} {g : NodeData → NodeData}
    (hg : (g (f.data o)).slots = (f.data o).slots) (m : NodeId) :
    (f.modify o g).slots m = f.slots m := by
  by_cases h : m = o
  · subst h
    rcases Nat.lt_or_ge m f.size with hlt | hge
    · rw [slots, data_modify_self hlt, hg, slots]
    · rw [slots_of_size_le hge, slots_of_size_le (by rwa [size_modify])]
  · rw [slots, data_modify_of_ne h, slots]

/-- A change that leaves the parent of a node alone leaves all parents alone. -/
theorem parent_modify {o : NodeId} {g : NodeData → NodeData}
    (hg : (g (f.data o)).parent = (f.data o).parent) (m : NodeId) :
    (f.modify o g).parent m = f.parent m := by
  by_cases h : m = o
  · subst h
    rcases Nat.lt_or_ge m f.size with hlt | hge
    · rw [parent, data_modify_self hlt, hg, parent]
    · rw [parent_of_size_le hge, parent_of_size_le (by rwa [size_modify])]
  · rw [parent, data_modify_of_ne h, parent]

@[simp] theorem size_detach (f : Forest) (n : NodeId) : (f.detach n).size = f.size := by
  unfold detach
  split <;> simp

theorem detach_of_parent_eq_none {n : NodeId} (h : f.parent n = none) : f.detach n = f := by
  rw [detach, h]

theorem parent_detach (f : Forest) (n m : NodeId) :
    (f.detach n).parent m = if m = n then none else f.parent m := by
  cases hp : f.parent n with
  | none =>
      rw [detach_of_parent_eq_none hp]
      split
      · next h => rw [h, hp]
      · rfl
  | some p =>
      rw [detach, hp]
      exact (parent_modify rfl m).trans (parent_modify_clear m)

theorem slots_detach {n p : NodeId} (hp : f.parent n = some p) (hlt : p < f.size) (m : NodeId) :
    (f.detach n).slots m =
      if m = p then (f.slots m).filter (·.2 != n) else f.slots m := by
  have hclear (m : NodeId) : (f.modify n ({ · with parent := none })).slots m = f.slots m :=
    slots_modify rfl m
  rw [detach, hp]
  by_cases h : m = p
  · subst h
    rw [if_pos rfl, slots, data_modify_self (by simpa using hlt), ← hclear]
    rfl
  · rw [if_neg h, slots, data_modify_of_ne h]
    exact hclear m

/-! ## Putting a node below another -/

@[simp] theorem size_link (f : Forest) (owner c : NodeId)
    (change : List (Title × NodeId) → List (Title × NodeId)) :
    (f.link owner c change).size = f.size := by
  simp [link]

theorem parent_link {owner c : NodeId} (hc : c < f.size)
    (change : List (Title × NodeId) → List (Title × NodeId)) (m : NodeId) :
    (f.link owner c change).parent m = if m = c then some owner else f.parent m := by
  rw [link, parent_modify rfl]
  by_cases h : m = c
  · subst h
    rw [if_pos rfl, parent, data_modify_self hc]
  · rw [if_neg h, parent, data_modify_of_ne h, parent]

theorem slots_link {owner : NodeId} (howner : owner < f.size) (c : NodeId)
    (change : List (Title × NodeId) → List (Title × NodeId)) (m : NodeId) :
    (f.link owner c change).slots m =
      if m = owner then change (f.slots m) else f.slots m := by
  have hparent (m : NodeId) : (f.modify c ({ · with parent := some owner })).slots m = f.slots m :=
    slots_modify rfl m
  rw [link]
  by_cases h : m = owner
  · subst h
    rw [if_pos rfl, slots, data_modify_self (by simpa using howner), ← hparent]
    rfl
  · rw [if_neg h, slots, data_modify_of_ne h]
    exact hparent m

end DualSyntax.Forest
