import DualSyntax.Proofs.Forest.Data

/-!
# Putting roots together

A tree is made from its leaves upwards: nodes without a parent are put below another node without a
parent.  Such an edit is never refused, and it touches only the node that gets its parent and the
slots of the owner.
-/

namespace DualSyntax.Forest

variable {f f' f'' : Forest} {n owner c : NodeId} {t : Title}

/-- A node without a parent. -/
structure IsRoot (f : Forest) (n : NodeId) : Prop where
  lt : n < f.size
  parent : f.parent n = none

theorem ancestors_of_parent_none (h : f.parent n = none) : f.ancestors n = [] := by
  unfold ancestors
  cases f.size with
  | zero => rfl
  | succ k => rw [ancestorsUpTo, h]

theorem ancestors_of_isRoot (h : f.IsRoot n) : f.ancestors n = [] := ancestors_of_parent_none h.parent

theorem canAttach_of_isRoot (ho : f.IsRoot owner) (hc : c < f.size) (hne : c ≠ owner) :
    f.canAttach owner c = true := by
  simp [canAttach, contains, ho.lt, hc, hne.symm, ancestors_of_isRoot ho]

/-! ## Kinds -/

theorem kind_modify {g : NodeData → NodeData} (hg : (g (f.data n)).kind = (f.data n).kind)
    (m : NodeId) :
    (f.modify n g).kind m = f.kind m := by
  by_cases h : m = n
  · subst h
    rcases Nat.lt_or_ge m f.size with hlt | hge
    · rw [kind, data_modify_self hlt, hg, kind]
    · rw [kind, data_of_size_le (by rwa [size_modify]), kind, data_of_size_le hge]
  · rw [kind, data_modify_of_ne h, kind]

theorem kind_detach (f : Forest) (n m : NodeId) : (f.detach n).kind m = f.kind m := by
  unfold detach
  split
  · rfl
  · exact (kind_modify rfl m).trans (kind_modify rfl m)

theorem kind_link (f : Forest) (owner c : NodeId)
    (change : List (Title × NodeId) → List (Title × NodeId)) (m : NodeId) :
    (f.link owner c change).kind m = f.kind m :=
  (kind_modify rfl m).trans (kind_modify rfl m)

theorem kind_allocate (f : Forest) (kind : NodeKind) (range : TextRange) :
    (f.allocate kind range).2.kind f.size = kind := by
  rw [Forest.kind, data_allocate_self]

theorem kind_allocate_of_lt (hn : n < f.size) (kind : NodeKind) (range : TextRange) :
    (f.allocate kind range).2.kind n = f.kind n := by
  rw [Forest.kind, data_allocate_of_ne (Nat.ne_of_lt hn), Forest.kind]

/-! ## Attaching a root -/

/-- A forest in which a root has been put below another, whose slots have changed. -/
structure Attached (f f' : Forest) (owner c : NodeId)
    (change : List (Title × NodeId) → List (Title × NodeId)) : Prop where
  size : f'.size = f.size
  kind : ∀ m, f'.kind m = f.kind m
  root : ∀ m, m ≠ c → f.parent m = none → f'.parent m = none
  slots_owner : f'.slots owner = change (f.slots owner)
  slots : ∀ m, m ≠ owner → f'.slots m = f.slots m

theorem attached_link (ho : owner < f.size) (hc : c < f.size)
    (change : List (Title × NodeId) → List (Title × NodeId)) :
    Attached f (f.link owner c change) owner c change where
  size := size_link f owner c change
  kind := kind_link f owner c change
  root m hm h := by rw [parent_link hc, if_neg hm, h]
  slots_owner := by rw [slots_link ho, if_pos rfl]
  slots m hm := by rw [slots_link ho, if_neg hm]

theorem appendChild?_of_isRoot (ho : f.IsRoot owner) (hc : f.IsRoot c) (hne : c ≠ owner)
    (t : Title) :
    ∃ f', f.appendChild? owner t c = some f' ∧ Attached f f' owner c (· ++ [(t, c)]) := by
  refine ⟨_, if_pos (canAttach_of_isRoot ho hc.lt hne), ?_⟩
  rw [detach_of_parent_eq_none hc.parent]
  exact attached_link ho.lt hc.lt _

theorem putFirst_of_child? {ss : List (Title × NodeId)}
    (h : (ss.find? (·.1 == t)).map (·.2) = some c) : putFirst t c ss = ss := by
  induction ss with
  | nil => cases h
  | cons s ss ih =>
      by_cases hs : s.1 = t
      · have hc : s.2 = c := by simpa [hs] using h
        rw [putFirst, if_pos hs, ← hs, ← hc]
      · rw [putFirst, if_neg hs, ih (by simpa [hs] using h)]

theorem setChild?_of_isRoot (ho : f.IsRoot owner) (hc : f.IsRoot c) (hne : c ≠ owner)
    (t : Title) :
    ∃ old f', f.setChild? owner t c = some (old, f') ∧ Attached f f' owner c (putFirst t c) := by
  have hattach := canAttach_of_isRoot ho hc.lt hne
  unfold setChild?
  rw [hattach, detach_of_parent_eq_none hc.parent]
  by_cases hthere : f.child? owner t = some c
  · refine ⟨none, f, by simp [hthere], ⟨rfl, fun _ => rfl, fun _ _ h => h, ?_, fun _ _ => rfl⟩⟩
    rw [putFirst_of_child? hthere]
  · refine ⟨_, _, by simp [hthere]; exact ⟨rfl, rfl⟩, ?_⟩
    have hlink := attached_link ho.lt hc.lt (putFirst t c)
    cases f.child? owner t with
    | none => exact hlink
    | some o =>
        -- the child that was there loses its parent; nothing else changes
        refine ⟨?_, ?_, ?_, ?_, ?_⟩
        · rw [Option.elim_some, size_modify, hlink.size]
        · intro m
          exact (kind_modify rfl m).trans (hlink.kind m)
        · intro m hm h
          rw [Option.elim_some, parent_modify_clear]
          split
          · rfl
          · exact hlink.root m hm h
        · rw [Option.elim_some, slots_modify rfl, hlink.slots_owner]
        · intro m hm
          rw [Option.elim_some, slots_modify rfl, hlink.slots m hm]

/-! ## What a step keeps -/

/-- From one forest to the next no node is lost, no kind changes, and the roots among some nodes
stay roots. -/
structure Keeps (among : NodeId → Prop) (f f' : Forest) : Prop where
  size_le : f.size ≤ f'.size
  kind : ∀ n, n < f.size → f'.kind n = f.kind n
  root : ∀ n, among n → f.IsRoot n → f'.IsRoot n

/-- A step that keeps all roots. -/
abbrev Grows (f f' : Forest) : Prop := Keeps (fun _ => True) f f'

theorem Keeps.refl (among : NodeId → Prop) (f : Forest) : Keeps among f f :=
  ⟨Nat.le_refl _, fun _ _ => rfl, fun _ _ h => h⟩

/-- What a second step keeps has to hold only of nodes that were there before the first. -/
theorem Keeps.andThen {among among' : NodeId → Prop} (h : Keeps among f f')
    (h' : Keeps among' f' f'') (hold : ∀ n, n < f.size → among n → among' n) :
    Keeps among f f'' where
  size_le := Nat.le_trans h.size_le h'.size_le
  kind n hn := (h'.kind n (Nat.lt_of_lt_of_le hn h.size_le)).trans (h.kind n hn)
  root n hn hroot := h'.root n (hold n hroot.lt hn) (h.root n hn hroot)

theorem Keeps.trans {among : NodeId → Prop} (h : Keeps among f f') (h' : Keeps among f' f'') :
    Keeps among f f'' :=
  h.andThen h' fun _ _ hn => hn

theorem Keeps.mono {among among' : NodeId → Prop} (h : Keeps among f f')
    (hsub : ∀ n, n < f.size → among' n → among n) : Keeps among' f f' :=
  ⟨h.size_le, h.kind, fun n hn hroot => h.root n (hsub n hroot.lt hn) hroot⟩

/-- Nodes made since the first forest do not count among those it had. -/
theorem Keeps.grows_of_new {among : NodeId → Prop} (h : Grows f f') (h' : Keeps among f' f'')
    (hnew : ∀ n, n < f.size → among n) : Grows f f'' :=
  h.andThen h' fun n hn _ => hnew n hn

theorem IsRoot.of_grows (hn : f.IsRoot n) (h : Grows f f') : f'.IsRoot n := h.root n trivial hn

theorem Attached.keeps {change : List (Title × NodeId) → List (Title × NodeId)}
    (h : Attached f f' owner c change) : Keeps (· ≠ c) f f' where
  size_le := Nat.le_of_eq h.size.symm
  kind n _ := h.kind n
  root n hn hroot := ⟨by rw [h.size]; exact hroot.lt, h.root n hn hroot.parent⟩

theorem grows_allocate (f : Forest) (kind : NodeKind) (range : TextRange) :
    Grows f (f.allocate kind range).2 where
  size_le := by simp
  kind n hn := kind_allocate_of_lt hn kind range
  root n _ hroot := ⟨by rw [size_allocate]; exact Nat.lt_succ_of_lt hroot.lt, by
    rw [parent_allocate, hroot.parent]⟩

theorem grows_detach (f : Forest) (n : NodeId) : Grows f (f.detach n) where
  size_le := by simp
  kind m _ := kind_detach f n m
  root m _ hroot := ⟨by simpa using hroot.lt, by rw [parent_detach, hroot.parent]; split <;> rfl⟩

theorem isRoot_detach (hn : n < f.size) : (f.detach n).IsRoot n :=
  ⟨by simpa using hn, by rw [parent_detach, if_pos rfl]⟩

theorem isRoot_allocate (f : Forest) (kind : NodeKind) (range : TextRange) :
    (f.allocate kind range).2.IsRoot f.size :=
  ⟨by simp, by rw [parent_allocate, parent_of_size_le (Nat.le_refl _)]⟩

end DualSyntax.Forest
