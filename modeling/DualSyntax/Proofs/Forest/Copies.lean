import DualSyntax.Proofs.Forest.Edits
import DualSyntax.Proofs.Forest.Equivalence

/-!
# Copies of trees

A tree is copied node by node in the order of its walk, so the copies of its nodes are the new numbers
in that order.  `Copying` says how far a copy has come: the nodes of the trees below some of the slots
have copies with the same kinds, places and slots, nothing that was there before has changed, and the
new root stands under nothing, so the next copy can be put below it.
-/

namespace DualSyntax.Forest

variable {source f f' g g' : Forest} {n m c : NodeId}

/-! ## The numbers of the copies -/

/-- The number of the copy of a node, when the tree below a root is copied and the copies are numbered
from `first`. -/
def copyPlace (source : Forest) (root : NodeId) (first : Nat) (m : NodeId) : NodeId :=
  first + (source.descendants root).idxOf m

/-- A node has a copy. -/
structure CopyOf (source f : Forest) (place : NodeId → NodeId) (m : NodeId) : Prop where
  kind : f.kind (place m) = source.kind m
  range : f.range (place m) = source.range m
  slots : f.slots (place m) = (source.slots m).map fun s => (s.1, place s.2)

namespace CopyOf

variable {place place' : NodeId → NodeId}

/-- A copy stays as long as its node does. -/
theorem of_data (h : CopyOf source f place m) (hdata : f'.data (place m) = f.data (place m)) :
    CopyOf source f' place m where
  kind := (congrArg NodeData.kind hdata).trans h.kind
  range := (congrArg NodeData.range hdata).trans h.range
  slots := (congrArg NodeData.slots hdata).trans h.slots

/-- Only the places of the node and of its children count. -/
theorem congr (h : CopyOf source f place m) (hm : place m = place' m)
    (hchildren : ∀ c ∈ source.childIds m, place c = place' c) : CopyOf source f place' m where
  kind := hm ▸ h.kind
  range := hm ▸ h.range
  slots := by
    rw [← hm, h.slots]
    refine List.map_congr_left fun s hs => ?_
    rw [hchildren s.2 (List.mem_map_of_mem hs)]

end CopyOf

namespace WellLinked

variable (hs : source.WellLinked)

include hs

theorem copyPlace_root (n : NodeId) (first : Nat) : source.copyPlace n first n = first := by
  rw [copyPlace, hs.descendants_eq, List.idxOf_cons_self, Nat.add_zero]

theorem nodup_descendants (n : NodeId) : (source.descendants n).Nodup := by
  rw [descendants, hs.walk_eq_fullWalk]
  exact hs.nodup_entered n

theorem mem_descendants_of_child (hc : c ∈ source.childIds n) (hm : m ∈ source.descendants c) :
    m ∈ source.descendants n := by
  rw [hs.descendants_eq]
  exact List.mem_cons_of_mem _ (List.mem_flatMap.mpr ⟨c, hc, hm⟩)

/-- The copies of the tree below a child follow those of the root and of the trees before it. -/
theorem copyPlace_of_child {before after : List NodeId} (h : source.childIds n = before ++ c :: after)
    (hm : m ∈ source.descendants c) (first : Nat) :
    source.copyPlace n first m =
      source.copyPlace c (first + 1 + (before.flatMap source.descendants).length) m := by
  have hnodup := hs.nodup_descendants n
  rw [copyPlace, copyPlace]
  rw [hs.descendants_eq, h, List.flatMap_append, List.flatMap_cons] at hnodup ⊢
  rw [List.nodup_cons, List.nodup_append, List.mem_append, List.mem_append] at hnodup
  obtain ⟨hroot, -, -, hbefore⟩ := hnodup
  have hne : n ≠ m := fun heq => hroot (.inr (.inl (heq ▸ hm)))
  have hnew : m ∉ before.flatMap source.descendants := fun hmem =>
    hbefore m hmem m (List.mem_append_left _ hm) rfl
  rw [List.idxOf_cons_ne _ hne, List.idxOf_append_of_notMem hnew, List.idxOf_append_of_mem hm]
  simp only [Nat.add_assoc, Nat.add_comm 1, Nat.succ_eq_add_one]

/-- The copies of the nodes below the root have later numbers. -/
theorem lt_copyPlace (hc : c ∈ source.childIds n) (hm : m ∈ source.descendants c) (first : Nat) :
    first < source.copyPlace n first m := by
  have hnodup := hs.nodup_descendants n
  rw [hs.descendants_eq, List.nodup_cons] at hnodup
  have hne : n ≠ m := by
    rintro rfl
    exact hnodup.1 (List.mem_flatMap.mpr ⟨c, hc, hm⟩)
  rw [copyPlace, hs.descendants_eq, List.idxOf_cons_ne _ hne]
  exact Nat.lt_add_of_pos_right (Nat.succ_pos _)

end WellLinked

/-! ## A copy in the making -/

/-- A forest to which the root `n` of a tree has been copied, and the trees below the given slots. -/
structure Copying (source f g : Forest) (n : NodeId) (done : List (Title × NodeId)) : Prop where
  size : g.size = f.size + 1 + ((done.map (·.2)).flatMap source.descendants).length
  /-- The nodes that were there before. -/
  data : ∀ m < f.size, g.data m = f.data m
  kind : g.kind f.size = source.kind n
  range : g.range f.size = source.range n
  parent : g.parent f.size = none
  slots : g.slots f.size = done.map fun s => (s.1, source.copyPlace n f.size s.2)
  nodes : ∀ s ∈ done, ∀ m ∈ source.descendants s.2,
    source.copyPlace n f.size m < g.size ∧ CopyOf source g (source.copyPlace n f.size) m

theorem copying_allocate (source f : Forest) (n : NodeId) :
    Copying source f (f.allocate (source.kind n) (source.range n)).2 n [] where
  size := by simp
  data m hm := data_allocate_of_ne (Nat.ne_of_lt hm) _ _
  kind := by rw [Forest.kind, data_allocate_self]
  range := by rw [Forest.range, data_allocate_self]
  parent := by rw [parent_allocate, parent_of_size_le (Nat.le_refl _)]
  slots := by rw [slots_allocate, slots_of_size_le (Nat.le_refl _), List.map_nil]
  nodes := by simp

theorem data_link_of_ne {owner : NodeId} (howner : m ≠ owner) (hc : m ≠ c)
    (change : List (Title × NodeId) → List (Title × NodeId)) :
    (f.link owner c change).data m = f.data m := by
  rw [link, data_modify_of_ne howner, data_modify_of_ne hc]

namespace Copying

theorem size_lt {done : List (Title × NodeId)} (h : Copying source f g n done) : f.size < g.size := by
  rw [h.size]
  omega

/-- When the trees below all slots are copied, so is the tree below the root. -/
theorem complete (hs : source.WellLinked) (h : Copying source f g n (source.slots n))
    (hm : m ∈ source.descendants n) :
    source.copyPlace n f.size m < g.size ∧ CopyOf source g (source.copyPlace n f.size) m := by
  rw [hs.descendants_eq, List.mem_cons, List.mem_flatMap] at hm
  rcases hm with rfl | ⟨c, hc, hm⟩
  · have hroot := hs.copyPlace_root m f.size
    refine ⟨?_, ?_, ?_, ?_⟩
    · rw [hroot]
      exact h.size_lt
    · rw [hroot, h.kind]
    · rw [hroot, h.range]
    · rw [hroot, h.slots]
  · obtain ⟨s, hslot, rfl⟩ := List.mem_map.mp hc
    exact h.nodes s hslot m hm

/-- Putting the copy of a child below the copy of the root. -/
theorem step (hs : source.WellLinked) {before after : List (Title × NodeId)}
    {s : Title × NodeId} (hslots : source.slots n = before ++ s :: after)
    (h : Copying source f g n before) (hc : Copying source g g' s.2 (source.slots s.2)) :
    ∃ g'', g'.appendChild? f.size s.1 g.size = some g'' ∧
      Copying source f g'' n (before ++ [s]) := by
  have hids : source.childIds n = before.map (·.2) ++ s.2 :: after.map (·.2) := by
    rw [childIds, hslots, List.map_append, List.map_cons]
  have hbefore : ∀ t ∈ before, t.2 ∈ source.childIds n := fun t ht => by
    rw [hids]
    exact List.mem_append_left _ (List.mem_map_of_mem ht)
  -- the copies below the child stand where they stand as copies below the root
  have hplace : ∀ m ∈ source.descendants s.2,
      source.copyPlace n f.size m = source.copyPlace s.2 g.size m := fun m hm => by
    rw [hs.copyPlace_of_child hids hm, h.size]
  have hgrown : f.size < g.size ∧ g.size < g'.size := ⟨h.size_lt, hc.size_lt⟩
  have hlt : f.size < g'.size := hgrown.1.trans hgrown.2
  have hold : g'.data f.size = g.data f.size := hc.data f.size hgrown.1
  have hroot : g'.IsRoot f.size := ⟨hlt, (congrArg NodeData.parent hold).trans h.parent⟩
  have hattach := canAttach_of_isRoot hroot hgrown.2 (Nat.ne_of_gt hgrown.1)
  refine ⟨_, if_pos hattach, ?_⟩
  rw [detach_of_parent_eq_none hc.parent]
  have hcopied {place : NodeId → NodeId} {m : NodeId} (hne : place m ≠ f.size)
      (hcopy : CopyOf source g' place m) :
      CopyOf source (g'.link f.size g.size (· ++ [(s.1, g.size)])) place m :=
    ⟨by rw [kind_link, hcopy.kind], by rw [range_link, hcopy.range],
      by rw [slots_link hlt, if_neg hne, hcopy.slots]⟩
  constructor
  case size =>
    have hchild : (source.descendants s.2).length =
        1 + (((source.slots s.2).map (·.2)).flatMap source.descendants).length := by
      rw [hs.descendants_eq s.2, List.length_cons, childIds, Nat.add_comm]
    rw [size_link, hc.size, h.size, List.map_append, List.flatMap_append, List.length_append,
      List.map_singleton, List.flatMap_singleton, hchild]
    simp only [Nat.add_assoc]
  case data =>
    intro m hm
    have hm' : m < g.size := hm.trans hgrown.1
    rw [data_link_of_ne (Nat.ne_of_lt hm) (Nat.ne_of_lt hm'), hc.data m hm', h.data m hm]
  case kind => exact (kind_link ..).trans ((congrArg NodeData.kind hold).trans h.kind)
  case range => exact (range_link ..).trans ((congrArg NodeData.range hold).trans h.range)
  case parent => rw [parent_link hgrown.2, if_neg (Nat.ne_of_lt hgrown.1), hroot.parent]
  case slots =>
    have hslots' : g'.slots f.size = before.map fun t => (t.1, source.copyPlace n f.size t.2) :=
      (congrArg NodeData.slots hold).trans h.slots
    rw [slots_link hlt, if_pos rfl, hslots', List.map_append, List.map_singleton,
      hplace s.2 (hs.mem_descendants_iff.mpr .refl), hs.copyPlace_root]
  case nodes =>
    intro t ht m hm
    rw [size_link]
    rcases List.mem_append.mp ht with ht | ht
    · obtain ⟨hbound, hcopy⟩ := h.nodes t ht m hm
      refine ⟨hbound.trans hgrown.2, hcopied ?_ (hcopy.of_data (hc.data _ hbound))⟩
      exact Nat.ne_of_gt (hs.lt_copyPlace (hbefore t ht) hm f.size)
    · obtain rfl := List.mem_singleton.mp ht
      obtain ⟨hbound, hcopy⟩ := hc.complete hs hm
      have hchild : t.2 ∈ source.childIds n := by rw [hids]; simp
      refine ⟨(hplace m hm).symm ▸ hbound, hcopied ?_ (hcopy.congr ?_ fun c hchild => ?_)⟩
      · exact Nat.ne_of_gt (hs.lt_copyPlace hchild hm f.size)
      · exact (hplace m hm).symm
      · exact (hplace c (hs.mem_descendants_iff.mpr (.head ((hs.parent_iff m c).mpr hchild)
          (hs.mem_descendants_iff.mp hm)))).symm

end Copying

/-- A bound that is not below the depth of the tree cuts nothing off. -/
theorem copying_copyUpTo (hs : source.WellLinked) {fuel : Nat}
    (hfuel : (below source n).card ≤ fuel) :
    (copyUpTo source fuel n f).1 = f.size ∧
      Copying source f (copyUpTo source fuel n f).2 n (source.slots n) := by
  induction fuel generalizing n f with
  | zero =>
      have hnone : source.slots n = [] := by
        refine List.eq_nil_iff_forall_not_mem.mpr fun s hslot => ?_
        have := hs.card_below_lt (List.mem_map_of_mem hslot : s.2 ∈ source.childIds n)
        omega
      rw [copyUpTo, hnone]
      exact ⟨rfl, copying_allocate source f n⟩
  | succ fuel ih =>
      rw [copyUpTo]
      refine ⟨rfl, ?_⟩
      dsimp only
      -- the slots that are left are copied to a forest with the copies of those before them
      suffices hrest : ∀ (rest done : List (Title × NodeId)) (g : Forest),
          source.slots n = done ++ rest → Copying source f g n done →
          Copying source f (rest.foldl (fun f' s => ((copyUpTo source fuel s.2 f').2.appendChild?
            f.size s.1 (copyUpTo source fuel s.2 f').1).getD (copyUpTo source fuel s.2 f').2) g) n
            (source.slots n) from
        hrest (source.slots n) [] _ rfl (copying_allocate source f n)
      intro rest
      induction rest with
      | nil =>
          intro done g hslots h
          rw [hslots, List.append_nil]
          exact h
      | cons s rest ihrest =>
          intro done g hslots h
          have hchild : s.2 ∈ source.childIds n :=
            List.mem_map_of_mem (by rw [hslots]; simp)
          have hless := hs.card_below_lt hchild
          obtain ⟨hroot, hcopy⟩ := ih (n := s.2) (f := g) (by omega)
          obtain ⟨g', hg', hstep⟩ := h.step hs hslots hcopy
          rw [List.foldl_cons, hroot, hg', Option.getD_some]
          exact ihrest (done ++ [s]) g' (by rw [hslots, List.append_assoc]; rfl) hstep

/-! ## Copies are trees like the original -/

theorem CopyOf.descendants {place : NodeId → NodeId} (hs : source.WellLinked) (hf : f.WellLinked)
    (h : ∀ m ∈ source.descendants n, CopyOf source f place m) :
    f.descendants (place n) = (source.descendants n).map place := by
  induction n using hs.childInduction with
  | step n ih =>
      rw [hs.descendants_eq] at h ⊢
      rw [List.forall_mem_cons] at h
      have hids : f.childIds (place n) = (source.childIds n).map place := by
        rw [childIds, h.1.slots, childIds, List.map_map, List.map_map]
        rfl
      rw [hf.descendants_eq, hids, List.flatMap_map, List.map_cons, List.map_flatMap]
      refine congrArg _ (List.flatMap_congr fun c hc => ?_)
      exact ih c hc fun m hm => h.2 m (List.mem_flatMap.mpr ⟨c, hc, hm⟩)

/-- A copy is the same tree in the same concrete syntax. -/
theorem CopyOf.restyled {place : NodeId → NodeId} (hs : source.WellLinked)
    (h : ∀ m ∈ source.descendants n, CopyOf source f place m) : source.Restyled f n (place n) := by
  induction n using hs.childInduction with
  | step n ih =>
      rw [hs.descendants_eq, List.forall_mem_cons] at h
      refine .of_children (congrArg NodeKind.essence h.1.kind.symm) fun t _ => ?_
      have hchildren : f.children (place n) t = (source.children n t).map place := by
        rw [children, h.1.slots, List.filter_map, children, List.map_map, List.map_map]
        rfl
      rw [hchildren, List.forall₂_map_right_iff, List.forall₂_same]
      intro c hc
      have hchild := mem_childIds_of_mem_children hc
      exact ih c hchild fun m hm => h.2 m (List.mem_flatMap.mpr ⟨c, hchild, hm⟩)

/-- The copy of a tree is a new tree with no parent.  Its nodes correspond one to one to those of the
original, all of them are new, and they have the same kinds, places and titled slots in the same order;
so it agrees with the original, unless a literal is no number.  Nothing that was there before has
changed, and the links agree. -/
theorem copyFrom_faithful (hf : f.WellLinked) (hs : source.WellLinked) (n : NodeId) :
    ∃ copy f', f.copyFrom source n = (copy, f') ∧ f'.parent copy = none ∧
      (∃ place : NodeId → NodeId, place n = copy ∧
        f'.descendants copy = (source.descendants n).map place ∧
        Set.InjOn place { m | m ∈ source.descendants n } ∧
        ∀ m ∈ source.descendants n, f.size ≤ place m ∧ f'.contains (place m) = true ∧
          f'.kind (place m) = source.kind m ∧ f'.range (place m) = source.range m ∧
          f'.slots (place m) = (source.slots m).map fun s => (s.1, place s.2)) ∧
      ((∀ m ∈ source.descendants n, (source.kind m).isNaN = false) →
        f'.agree copy source n = true) ∧
      (∀ m, f.contains m = true → f'.kind m = f.kind m ∧ f'.range m = f.range m ∧
        f'.parent m = f.parent m ∧ f'.slots m = f.slots m) ∧
      f'.WellLinked := by
  obtain ⟨hroot, h⟩ := copying_copyUpTo (f := f) hs (source.card_below_le n)
  have hlinks := hf.copyUpTo source source.size n
  generalize hmade : copyUpTo source source.size n f = made at hroot h hlinks
  obtain ⟨copy, f'⟩ := made
  obtain rfl : copy = f.size := hroot
  have hcopies : ∀ m ∈ source.descendants n, CopyOf source f' (source.copyPlace n f.size) m :=
    fun m hm => (h.complete hs hm).2
  have hplace := hs.copyPlace_root n f.size
  refine ⟨f.size, f', hmade, h.parent, ⟨source.copyPlace n f.size, hplace, ?_, ?_, ?_⟩,
    fun hnumbers => ?_, fun m hm => ?_, hlinks⟩
  · rw [← CopyOf.descendants hs hlinks hcopies, hplace]
  · intro m hm m' _ heq
    exact (List.idxOf_inj hm).mp (Nat.add_left_cancel heq)
  · intro m hm
    obtain ⟨hlt, hcopy⟩ := h.complete hs hm
    exact ⟨Nat.le_add_right _ _, decide_eq_true hlt, hcopy.kind, hcopy.range, hcopy.slots⟩
  · have hstyle := CopyOf.restyled hs hcopies
    rw [hplace] at hstyle
    have hsame : source.Restyled source n n := .of_same hs fun _ _ => ⟨rfl, fun _ _ => rfl⟩
    exact (hstyle.agree_iff hs hlinks hsame).mp (hs.agree_self hnumbers)
  · have hdata := h.data m (of_decide_eq_true hm)
    exact ⟨congrArg NodeData.kind hdata, congrArg NodeData.range hdata,
      congrArg NodeData.parent hdata, congrArg NodeData.slots hdata⟩

/-- A sum with its sign is copied to a forest with three statements. -/
theorem copyFrom_faithful_sum :
    threeStatements.WellLinked ∧ spelledSum.WellLinked ∧
    ∃ f', threeStatements.copyFrom spelledSum 0 = (5, f') ∧ f'.agree 5 spelledSum 0 = true ∧
      f'.WellLinked := by
  have hf : threeStatements.WellLinked := WellLinked.empty.performAll _
  have hs : spelledSum.WellLinked := WellLinked.empty.performAll _
  obtain ⟨copy, f', hcopy, -, -, hagree, -, hlinks⟩ := copyFrom_faithful hf hs 0
  obtain rfl : copy = 5 := (congrArg Prod.fst hcopy).symm.trans (by decide)
  exact ⟨hf, hs, f', hcopy, hagree (by decide), hlinks⟩

end DualSyntax.Forest
