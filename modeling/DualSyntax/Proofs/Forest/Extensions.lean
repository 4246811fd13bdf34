import DualSyntax.Proofs.Forest.Edits

/-!
# Forests that grow

A forest that grows gets new nodes while the old ones stay as they were.  Edits below new nodes keep
this up, because the parent and the children of a new node are new themselves.
-/

namespace DualSyntax

/-- The kinds of nodes below which namespaces may be declared. -/
def NodeKind.isHost : NodeKind → Bool
  | .compilationUnit | .namespaceDeclaration => true
  | _ => false

/-- The kinds of all other nodes. -/
def NodeKind.IsInner (k : NodeKind) : Prop := k.isHost = false

namespace Forest

/-- From one forest to the next all nodes keep their kinds, parents and children, and the new nodes are
of some kinds. -/
structure Gains (kinds : NodeKind → Prop) (f f' : Forest) : Prop where
  base : f.WellLinked
  linked : f'.WellLinked
  size_le : f.size ≤ f'.size
  kind : ∀ n, n < f.size → f'.kind n = f.kind n
  parent : ∀ n, n < f.size → f'.parent n = f.parent n
  children : ∀ n t, n < f.size → f'.children n t = f.children n t
  new : ∀ n, f.size ≤ n → n < f'.size → kinds (f'.kind n)

theorem mem_children_of_child? {f : Forest} {n c : NodeId} {t : Title} (h : f.child? n t = some c) :
    c ∈ f.children n t := by
  rw [child?_eq_head?] at h
  exact List.mem_of_mem_head? h

theorem IsRoot.not_mem_children {f : Forest} (hf : f.WellLinked) {c : NodeId} (hc : f.IsRoot c)
    (n : NodeId) (t : Title) : c ∉ f.children n t := by
  intro hmem
  have hparent := hf.parent_of_mem_children hmem
  rw [hc.parent] at hparent
  cases hparent

/-! ## Edits that were not refused -/

section Edits

variable {f f' : Forest} {owner c : NodeId} {t : Title}

/-- What an addition that was not refused has done. -/
theorem WellLinked.edited_of_appendChild? (hf : f.WellLinked)
    (happend : f.appendChild? owner t c = some f') :
    ∃ list, Edited f f' c (some owner) none owner t list := by
  have hattach : f.canAttach owner c = true := by
    by_contra hrefused
    rw [Forest.appendChild?, if_neg hrefused] at happend
    cases happend
  obtain ⟨g, hg, hedited⟩ := hf.edited_append hattach t
  rw [happend] at hg
  cases hg
  exact ⟨_, hedited⟩

/-- What a replacement that was not refused has done: nothing if the child stood there already. -/
theorem WellLinked.edited_of_setChild? (hf : f.WellLinked) {old : Option NodeId}
    (hset : f.setChild? owner t c = some (old, f')) :
    f.child? owner t = some c ∧ f = f' ∨
      Edited f f' c (some owner) ((f.children owner t).filter (· != c)).head? owner t
        (c :: ((f.children owner t).filter (· != c)).drop 1) := by
  have hattach : f.canAttach owner c = true := by
    by_contra hrefused
    rw [Forest.setChild?, if_pos (by simpa using hrefused)] at hset
    cases hset
  by_cases hthere : f.child? owner t = some c
  · rw [Forest.setChild?, if_neg (by simp [hattach]), if_pos (by simp [hthere])] at hset
    cases hset
    exact .inl ⟨hthere, rfl⟩
  · obtain ⟨g, hg, hedited⟩ := hf.edited_set hattach t hthere
    rw [hset] at hg
    cases hg
    exact .inr hedited

end Edits

/-! ## Growth -/

namespace Gains

variable {kinds kinds' : NodeKind → Prop} {f f' f'' : Forest} {owner c n : NodeId} {t : Title}

theorem refl (h : f.WellLinked) : f.Gains kinds f where
  base := h
  linked := h
  size_le := Nat.le_refl _
  kind _ _ := rfl
  parent _ _ := rfl
  children _ _ _ := rfl
  new _ hn hlt := absurd hlt (Nat.not_lt.mpr hn)

theorem mono (h : f.Gains kinds f') (hkinds : ∀ k, kinds k → kinds' k) : f.Gains kinds' f' :=
  { h with new := fun n hn hlt => hkinds _ (h.new n hn hlt) }

theorem trans (h : f.Gains kinds f') (h' : f'.Gains kinds f'') : f.Gains kinds f'' where
  base := h.base
  linked := h'.linked
  size_le := Nat.le_trans h.size_le h'.size_le
  kind n hn := by rw [h'.kind n (Nat.lt_of_lt_of_le hn h.size_le), h.kind n hn]
  parent n hn := by rw [h'.parent n (Nat.lt_of_lt_of_le hn h.size_le), h.parent n hn]
  children n t hn := by
    rw [h'.children n t (Nat.lt_of_lt_of_le hn h.size_le), h.children n t hn]
  new n hn hlt := by
    by_cases hold : n < f'.size
    · rw [h'.kind n hold]
      exact h.new n hn hold
    · exact h'.new n (Nat.not_lt.mp hold) hlt

/-! ## New nodes among themselves -/

theorem parent_new (h : f.Gains kinds f') (hc : f.size ≤ c) (hp : f'.parent c = some n) :
    f.size ≤ n := by
  by_contra hold
  rw [Nat.not_le] at hold
  obtain ⟨t, -, hmem⟩ := h.linked.exists_title hp
  rw [h.children n t hold] at hmem
  exact Nat.not_lt.mpr hc (lt_size_of_parent (h.base.parent_of_mem_children hmem))

theorem child_new (h : f.Gains kinds f') (hn : f.size ≤ n) (hc : c ∈ f'.children n t) :
    f.size ≤ c := by
  by_contra hold
  rw [Nat.not_le] at hold
  have hparent := h.linked.parent_of_mem_children hc
  rw [h.parent c hold] at hparent
  exact Nat.not_lt.mpr hn (h.base.parent_lt hparent)

/-- A new node is no child of an old one. -/
theorem not_mem_children (h : f.Gains kinds f') (hc : f.size ≤ c) (hn : n < f.size) (t : Title) :
    c ∉ f'.children n t := by
  intro hmem
  exact Nat.not_lt.mpr (h.parent_new hc (h.linked.parent_of_mem_children hmem)) hn

/-! ## Edits -/

theorem allocate (h : f.Gains kinds f') {k : NodeKind} (hk : kinds k) (range : TextRange) :
    f.Gains kinds (f'.allocate k range).2 where
  base := h.base
  linked := h.linked.allocate k range
  size_le := by
    rw [size_allocate]
    exact Nat.le_succ_of_le h.size_le
  kind n hn := by
    rw [kind_allocate_of_lt (Nat.lt_of_lt_of_le hn h.size_le), h.kind n hn]
  parent n hn := by rw [parent_allocate, h.parent n hn]
  children n t hn := by
    rw [Forest.children, slots_allocate, ← Forest.children, h.children n t hn]
  new n hn hlt := by
    rw [size_allocate] at hlt
    rcases Nat.lt_succ_iff_lt_or_eq.mp hlt with hold | rfl
    · rw [kind_allocate_of_lt hold]
      exact h.new n hn hold
    · rw [kind_allocate]
      exact hk

/-- A new node is moved below a new one, and pushes only new nodes out. -/
theorem edited (h : f.Gains kinds f') {above out : Option NodeId} {list : List NodeId}
    (hedited : Edited f' f'' c above out owner t list) (hlinked : f''.WellLinked) (hc : f.size ≤ c)
    (howner : f.size ≤ owner) (hout : ∀ o ∈ out, f.size ≤ o) : f.Gains kinds f'' where
  base := h.base
  linked := hlinked
  size_le := by
    rw [hedited.size]
    exact h.size_le
  kind n hn := by rw [hedited.kind, h.kind n hn]
  parent n hn := by
    have hstays : some n ≠ out := fun heq => Nat.not_lt.mpr (hout n heq.symm) hn
    have hne : n ≠ c := fun heq => Nat.not_lt.mpr hc (heq ▸ hn)
    rw [hedited.parent, if_neg hstays, if_neg hne, h.parent n hn]
  children n u hn := by
    have hne : n ≠ owner := fun heq => Nat.not_lt.mpr howner (heq ▸ hn)
    rw [hedited.others n u (.inl hne), filter_of_not_mem (h.not_mem_children hc hn u),
      h.children n u hn]
  new n hn hlt := by
    rw [hedited.kind]
    exact h.new n hn (hedited.size ▸ hlt)

theorem appendChild? (h : f.Gains kinds f') (howner : f.size ≤ owner) (hc : f.size ≤ c)
    (happend : f'.appendChild? owner t c = some f'') : f.Gains kinds f'' := by
  obtain ⟨list, hedited⟩ := h.linked.edited_of_appendChild? happend
  exact h.edited hedited (h.linked.appendChild? happend) hc howner (by simp)

theorem setChild? (h : f.Gains kinds f') (howner : f.size ≤ owner) (hc : f.size ≤ c)
    {old : Option NodeId} (hset : f'.setChild? owner t c = some (old, f'')) : f.Gains kinds f'' := by
  rcases h.linked.edited_of_setChild? hset with ⟨-, rfl⟩ | hedited
  · exact h
  · refine h.edited hedited (h.linked.setChild? hset) hc howner fun o ho => ?_
    have hmem := (List.mem_filter.mp (List.mem_of_mem_head? ho)).1
    exact h.child_new howner hmem

theorem detach (h : f.Gains kinds f') (hc : f.size ≤ c) : f.Gains kinds (f'.detach c) where
  base := h.base
  linked := h.linked.detach c
  size_le := by
    rw [size_detach]
    exact h.size_le
  kind n hn := by rw [kind_detach, h.kind n hn]
  parent n hn := by
    have hne : n ≠ c := fun heq => Nat.not_lt.mpr hc (heq ▸ hn)
    rw [parent_detach, if_neg hne, h.parent n hn]
  children n t hn := by
    rw [h.linked.children_detach, filter_of_not_mem (h.not_mem_children hc hn t),
      h.children n t hn]
  new n hn hlt := by
    rw [size_detach] at hlt
    rw [kind_detach]
    exact h.new n hn hlt

end Gains

end Forest

end DualSyntax
