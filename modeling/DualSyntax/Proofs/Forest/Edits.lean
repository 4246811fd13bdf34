import DualSyntax.Proofs.Forest.Roots
import DualSyntax.Proofs.Forest.Walks

/-!
# Edits

What an edit of a forest does to the lists of children: first inserting a node that belongs to no
tree, then every edit.
-/

/-!
## Insertion

A node that belongs to no tree is inserted into a list of children: the owner gets it at its place in
this list and keeps its other children, all other nodes keep all of theirs, and only the inserted node
gets another parent.
-/

namespace DualSyntax.Forest

/-! ### Slots -/

def under (t : Title) (slots : List (Title × NodeId)) : List NodeId :=
  (slots.filter (·.1 == t)).map (·.2)

theorem children_eq_under (f : Forest) (n : NodeId) (t : Title) :
    f.children n t = under t (f.slots n) := rfl

theorem under_append (t : Title) (slots slots' : List (Title × NodeId)) :
    under t (slots ++ slots') = under t slots ++ under t slots' := by
  rw [under, List.filter_append, List.map_append, under, under]

theorem under_cons_of_eq {t : Title} {s : Title × NodeId} (h : s.1 = t)
    (slots : List (Title × NodeId)) : under t (s :: slots) = s.2 :: under t slots := by
  simp [under, h]

theorem under_cons_of_ne {t : Title} {s : Title × NodeId} (h : s.1 ≠ t)
    (slots : List (Title × NodeId)) : under t (s :: slots) = under t slots := by
  simp [under, h]

/-- A slot is inserted after as many slots of its title as are asked for, or after all of them. -/
theorem insertSlot_split (t : Title) (c : NodeId) (i : Nat) (slots : List (Title × NodeId)) :
    ∃ before after, slots = before ++ after ∧ insertSlot t c i slots = before ++ (t, c) :: after ∧
      under t before = (under t slots).take i := by
  induction slots generalizing i with
  | nil => exact ⟨[], [], rfl, by simp [insertSlot], by simp [under]⟩
  | cons s slots ih =>
      rw [insertSlot.eq_def]
      dsimp only
      split
      · rename_i hs
        cases i with
        | zero => exact ⟨[], s :: slots, rfl, rfl, by simp [under]⟩
        | succ i =>
            obtain ⟨before, after, hslots, hinsert, hbefore⟩ := ih i
            refine ⟨s :: before, after, congrArg _ hslots, congrArg _ hinsert, ?_⟩
            rw [under_cons_of_eq hs, under_cons_of_eq hs, hbefore, List.take_succ_cons]
      · rename_i hs
        obtain ⟨before, after, hslots, hinsert, hbefore⟩ := ih i
        refine ⟨s :: before, after, congrArg _ hslots, congrArg _ hinsert, ?_⟩
        rw [under_cons_of_ne hs, under_cons_of_ne hs, hbefore]

theorem under_insertSlot (t : Title) (c : NodeId) (i : Nat) (slots : List (Title × NodeId)) :
    under t (insertSlot t c i slots) = (under t slots).take i ++ c :: (under t slots).drop i := by
  obtain ⟨before, after, hslots, hinsert, hbefore⟩ := insertSlot_split t c i slots
  have hafter : under t after = (under t slots).drop i := by
    have hsame : under t before ++ under t after = under t before ++ (under t slots).drop i := by
      rw [← under_append, ← hslots, hbefore, List.take_append_drop]
    exact List.append_cancel_left hsame
  rw [hinsert, under_append, under_cons_of_eq (s := (t, c)) rfl, hbefore, hafter]

theorem under_insertSlot_of_ne {t t' : Title} (h : t ≠ t') (c : NodeId) (i : Nat)
    (slots : List (Title × NodeId)) : under t' (insertSlot t c i slots) = under t' slots := by
  obtain ⟨before, after, hslots, hinsert, -⟩ := insertSlot_split t c i slots
  rw [hinsert, under_append, under_cons_of_ne h, ← under_append, ← hslots]

/-- Another slot is found as before. -/
theorem find?_insertSlot {p : Title × NodeId → Bool} {t : Title} {c : NodeId} (h : p (t, c) = false)
    (i : Nat) (slots : List (Title × NodeId)) : (insertSlot t c i slots).find? p = slots.find? p := by
  obtain ⟨before, after, hslots, hinsert, -⟩ := insertSlot_split t c i slots
  rw [hinsert, List.find?_append, List.find?_cons, h, ← List.find?_append, ← hslots]

/-! ### The forest after an insertion -/

variable {f f' : Forest} {owner c : NodeId} {t : Title} {i : Nat}

/-- A node without a parent is inserted into a list of children. -/
structure Inserted (f f' : Forest) (owner c : NodeId) (t : Title) (i : Nat) : Prop where
  root : f.parent c = none
  result : f.insertChild? owner t i c = some f'

namespace Inserted

variable (h : Inserted f f' owner c t i)

include h

theorem eq_link : f.canAttach owner c = true ∧ f' = f.link owner c (insertSlot t c i) := by
  have hresult := h.result
  rw [insertChild?] at hresult
  split at hresult
  · rw [detach_of_parent_eq_none h.root] at hresult
    exact ⟨‹_›, (Option.some.inj hresult).symm⟩
  · cases hresult

theorem not_above (hf : f.WellLinked) :
    owner < f.size ∧ c < f.size ∧ ¬ Relation.ReflTransGen f.Below owner c := by
  obtain ⟨howner, hc, hne, habove⟩ := hf.not_above_of_canAttach h.eq_link.1
  refine ⟨howner, hc, fun hreach => ?_⟩
  rcases Relation.reflTransGen_iff_eq_or_transGen.mp hreach with heq | htrans
  · exact hne heq.symm
  · exact habove htrans

theorem size : f'.size = f.size := by
  rw [h.eq_link.2, size_link]

theorem kind (n : NodeId) : f'.kind n = f.kind n := by
  rw [h.eq_link.2, kind_link]

variable (hf : f.WellLinked)

include hf

theorem parent (n : NodeId) : f'.parent n = if n = c then some owner else f.parent n := by
  rw [h.eq_link.2, parent_link (h.not_above hf).2.1]

theorem slots (n : NodeId) :
    f'.slots n = if n = owner then insertSlot t c i (f.slots n) else f.slots n := by
  rw [h.eq_link.2, slots_link (h.not_above hf).1]

theorem wellLinked : f'.WellLinked := hf.insertChild? h.result

/-- The list that the node is inserted into. -/
theorem children_owner : f'.children owner t =
    (f.children owner t).take i ++ c :: (f.children owner t).drop i := by
  rw [children_eq_under, h.slots hf, if_pos rfl, under_insertSlot, children_eq_under]

theorem children_of_ne {n : NodeId} {t' : Title} (hne : n ≠ owner ∨ t ≠ t') :
    f'.children n t' = f.children n t' := by
  rw [children_eq_under, h.slots hf, children_eq_under]
  split
  · rename_i hn
    exact under_insertSlot_of_ne (hne.resolve_left (not_not_intro hn)) _ _ _
  · rfl

theorem titleInParent? {n : NodeId} (hn : n ≠ c) : f'.titleInParent? n = f.titleInParent? n := by
  rw [Forest.titleInParent?, Forest.titleInParent?, h.parent hf, if_neg hn]
  cases hp : f.parent n with
  | none => rfl
  | some p =>
      have hfind : (f'.slots p).find? (·.2 == n) = (f.slots p).find? (·.2 == n) := by
        rw [h.slots hf]
        split
        · exact find?_insertSlot (by simpa using hn.symm) i _
        · rfl
      simp only [Option.bind_eq_bind, Option.bind_some, hfind]

/-- Trees have the same nodes of some kinds, if there are none of these in the inserted one. -/
theorem filter_descendants {p : NodeId → Bool} (hp : ∀ m ∈ f.descendants c, p m = false) (n : NodeId) :
    (f'.descendants n).filter p = (f.descendants n).filter p := by
  have hf' := h.wellLinked hf
  induction n using hf'.childInduction with
  | step n ih =>
      have hchildren : ∀ ns : List NodeId, (∀ m ∈ ns, m ∈ f'.childIds n) →
          (ns.flatMap f'.descendants).filter p = (ns.flatMap f.descendants).filter p := by
        intro ns hns
        rw [List.filter_flatMap, List.filter_flatMap]
        exact List.flatMap_congr fun m hm => ih m (hns m hm)
      have hinserted : (f.descendants c).filter p = [] :=
        List.filter_eq_nil_iff.mpr fun m hm => by simp [hp m hm]
      have hbelow : ((f'.childIds n).flatMap f.descendants).filter p =
          ((f.childIds n).flatMap f.descendants).filter p := by
        by_cases hn : n = owner
        · -- the inserted tree adds nothing to the trees below the other children
          obtain ⟨before, after, hslots, hinsert, -⟩ := insertSlot_split t c i (f.slots n)
          rw [childIds, h.slots hf, if_pos hn, hinsert, childIds, hslots]
          simp only [List.map_append, List.map_cons, List.flatMap_append, List.flatMap_cons,
            List.filter_append, hinserted, List.nil_append]
        · rw [childIds, h.slots hf, if_neg hn, ← childIds]
      rw [hf'.descendants_eq, hf.descendants_eq, List.filter_cons, List.filter_cons,
        hchildren _ fun m hm => hm, hbelow]

end Inserted

end DualSyntax.Forest

/-!
## What edits do to lists of children

An edit moves one node: it stands in one list of children afterwards, or in none, and may push a
node out of its place there.  All other lists lose the moved node and keep their order, and nothing
but the parents of the two nodes changes.  `Edited` says so once for all edits; `edits_exact` gives
the list that each of them makes.
-/

namespace DualSyntax.Forest

variable {f f' : Forest} {owner c : NodeId} {t : Title}

/-- A forest after an edit that moved the node `c` below `above`, or out of all lists, and pushed
`out` out of its place: `list` stands below the owner under the title. -/
structure Edited (f f' : Forest) (c : NodeId) (above out : Option NodeId) (owner : NodeId)
    (t : Title) (list : List NodeId) : Prop where
  size : f'.size = f.size
  kind : ∀ n, f'.kind n = f.kind n
  range : ∀ n, f'.range n = f.range n
  parent : ∀ n, f'.parent n =
    if some n = out then none else if n = c then above else f.parent n
  list : f'.children owner t = list
  /-- All other lists. -/
  others : ∀ n u, (n ≠ owner ∨ u ≠ t) → f'.children n u = (f.children n u).filter (· != c)

/-! ### Places in the source -/

theorem range_modify {n : NodeId} {g : NodeData → NodeData}
    (hg : (g (f.data n)).range = (f.data n).range) (m : NodeId) :
    (f.modify n g).range m = f.range m := by
  by_cases h : m = n
  · subst h
    rcases Nat.lt_or_ge m f.size with hlt | hge
    · rw [range, data_modify_self hlt, hg, range]
    · rw [range, data_of_size_le (by rwa [size_modify]), range, data_of_size_le hge]
  · rw [range, data_modify_of_ne h, range]

theorem range_detach (f : Forest) (n m : NodeId) : (f.detach n).range m = f.range m := by
  unfold detach
  split
  · rfl
  · exact (range_modify rfl m).trans (range_modify rfl m)

theorem range_link (f : Forest) (owner c : NodeId)
    (change : List (Title × NodeId) → List (Title × NodeId)) (m : NodeId) :
    (f.link owner c change).range m = f.range m :=
  (range_modify rfl m).trans (range_modify rfl m)

/-! ### Lists among slots -/

theorem under_filter (t : Title) (c : NodeId) (slots : List (Title × NodeId)) :
    under t (slots.filter (·.2 != c)) = (under t slots).filter (· != c) := by
  simp only [under, List.filter_map, List.filter_filter, Function.comp_def, Bool.and_comm]

theorem under_putFirst (t : Title) (c : NodeId) (slots : List (Title × NodeId)) :
    under t (putFirst t c slots) = c :: (under t slots).drop 1 := by
  induction slots with
  | nil => simp [putFirst, under]
  | cons s slots ih =>
      rw [putFirst]
      by_cases hs : s.1 = t
      · rw [if_pos hs, under_cons_of_eq (s := (t, c)) rfl, under_cons_of_eq hs, List.drop_one,
          List.tail_cons]
      · rw [if_neg hs, under_cons_of_ne hs, under_cons_of_ne hs, ih]

theorem under_putFirst_of_ne {t u : Title} (h : u ≠ t) (c : NodeId)
    (slots : List (Title × NodeId)) : under u (putFirst t c slots) = under u slots := by
  induction slots with
  | nil => simp [putFirst, under, h.symm]
  | cons s slots ih =>
      rw [putFirst]
      by_cases hs : s.1 = t
      · rw [if_pos hs, under_cons_of_ne (s := (t, c)) h.symm, under_cons_of_ne (hs ▸ h.symm)]
      · rw [if_neg hs]
        by_cases hu : s.1 = u
        · rw [under_cons_of_eq hu, under_cons_of_eq hu, ih]
        · rw [under_cons_of_ne hu, under_cons_of_ne hu, ih]

/-- A node that takes the place of another in the slots takes it in the list. -/
theorem under_replace (t : Title) (old new : NodeId) (slots : List (Title × NodeId)) :
    under t (slots.map fun s => if s.2 = old then (s.1, new) else s) =
      (under t slots).map fun m => if m = old then new else m := by
  induction slots with
  | nil => rfl
  | cons s slots ih =>
      rw [List.map_cons]
      by_cases ht : s.1 = t
      · rw [under_cons_of_eq ht, List.map_cons, ← ih]
        split
        · rw [under_cons_of_eq (s := (s.1, new)) ht]
        · rw [under_cons_of_eq ht]
      · rw [under_cons_of_ne ht, ← ih]
        split
        · rw [under_cons_of_ne (s := (s.1, new)) ht]
        · rw [under_cons_of_ne ht]

theorem map_replace_of_not_mem {old new : NodeId} {ms : List NodeId} (h : old ∉ ms) :
    (ms.map fun m => if m = old then new else m) = ms := by
  conv_rhs => rw [← List.map_id ms]
  refine List.map_congr_left fun m hm => ?_
  have hne : m ≠ old := fun heq => h (heq ▸ hm)
  rw [if_neg hne, id]

theorem filter_of_not_mem {ms : List NodeId} (h : c ∉ ms) : ms.filter (· != c) = ms := by
  rw [List.filter_eq_self]
  intro m hm
  have hne : m ≠ c := fun heq => h (heq ▸ hm)
  simpa using hne

theorem WellLinked.children_detach (h : f.WellLinked) (c n : NodeId) (t : Title) :
    (f.detach c).children n t = (f.children n t).filter (· != c) := by
  have helsewhere (hn : f.parent c ≠ some n) : (f.children n t).filter (· != c) = f.children n t :=
    filter_of_not_mem fun hmem => hn (h.parent_of_mem_children hmem)
  cases hp : f.parent c with
  | none => rw [detach_of_parent_eq_none hp, helsewhere (by rw [hp]; nofun)]
  | some p =>
      rw [children_eq_under, slots_detach hp (h.parent_lt hp)]
      split
      · rw [under_filter, children_eq_under]
      · rename_i hn
        rw [helsewhere (by rw [hp]; exact fun heq => hn (Option.some.inj heq).symm),
          children_eq_under]

/-! ### Putting a node into a list -/

theorem WellLinked.edited_link (h : f.WellLinked) (hc : f.canAttach owner c = true)
    {change : List (Title × NodeId) → List (Title × NodeId)} {list : List NodeId}
    (hlist : under t (change ((f.detach c).slots owner)) = list)
    (hothers : ∀ u, u ≠ t →
      under u (change ((f.detach c).slots owner)) = under u ((f.detach c).slots owner)) :
    Edited f ((f.detach c).link owner c change) c (some owner) none owner t list := by
  obtain ⟨howner, hlt, -, -⟩ := h.not_above_of_canAttach hc
  have howner' : owner < (f.detach c).size := by rwa [size_detach]
  have hlt' : c < (f.detach c).size := by rwa [size_detach]
  constructor
  case size => rw [size_link, size_detach]
  case kind =>
      intro n
      rw [kind_link, kind_detach]
  case range =>
      intro n
      rw [range_link, range_detach]
  case parent =>
      intro n
      rw [if_neg (Option.some_ne_none n), parent_link hlt', parent_detach]
      split <;> rfl
  case list => rw [children_eq_under, slots_link howner', if_pos rfl, hlist]
  case others =>
      intro n u hne
      rw [← h.children_detach, children_eq_under, slots_link howner', children_eq_under]
      split
      · rename_i hn
        subst hn
        exact hothers u (hne.resolve_left (not_not_intro rfl))
      · rfl

/-- A node that loses its parent and stands in no list any more. -/
theorem Edited.pushOut {above : Option NodeId} {list : List NodeId}
    (h : Edited f f' c above none owner t list) (o : NodeId) :
    Edited f (f'.modify o ({ · with parent := none })) c above (some o) owner t list where
  size := by rw [size_modify, h.size]
  kind n := (kind_modify rfl n).trans (h.kind n)
  range n := (range_modify rfl n).trans (h.range n)
  parent n := by
    rw [parent_modify_clear, h.parent, if_neg (Option.some_ne_none n)]
    simp only [Option.some.injEq]
  list := by rw [children_eq_under, slots_modify rfl, ← children_eq_under, h.list]
  others n u hne := by
    rw [children_eq_under, slots_modify rfl, ← children_eq_under, h.others n u hne]

/-! ### The edits -/

namespace WellLinked

variable (h : f.WellLinked)

include h

theorem edited_append (hc : f.canAttach owner c = true) (t : Title) :
    ∃ f', f.appendChild? owner t c = some f' ∧ Edited f f' c (some owner) none owner t
      ((f.children owner t).filter (· != c) ++ [c]) := by
  refine ⟨_, if_pos hc, h.edited_link hc ?_ fun u hu => ?_⟩
  · rw [under_append, ← children_eq_under, h.children_detach]
    simp [under]
  · rw [under_append]
    simp [under, hu.symm]

theorem edited_insert (hc : f.canAttach owner c = true) (t : Title) (i : Nat) :
    ∃ f', f.insertChild? owner t i c = some f' ∧ Edited f f' c (some owner) none owner t
      (((f.children owner t).filter (· != c)).take i ++
        c :: ((f.children owner t).filter (· != c)).drop i) := by
  refine ⟨_, if_pos hc, h.edited_link hc ?_ fun u hu => ?_⟩
  · rw [under_insertSlot, ← children_eq_under, h.children_detach]
  · exact under_insertSlot_of_ne hu.symm c i _

/-- A node that is put in front pushes the first child out. -/
theorem edited_set (hc : f.canAttach owner c = true) (t : Title)
    (hnew : f.child? owner t ≠ some c) :
    ∃ f', f.setChild? owner t c = some (((f.children owner t).filter (· != c)).head?, f') ∧
      Edited f f' c (some owner) ((f.children owner t).filter (· != c)).head? owner t
        (c :: ((f.children owner t).filter (· != c)).drop 1) := by
  have hfirst : (f.detach c).child? owner t = ((f.children owner t).filter (· != c)).head? := by
    rw [child?_eq_head?, h.children_detach]
  have hlink : Edited f ((f.detach c).link owner c (putFirst t c)) c (some owner) none owner t
      (c :: ((f.children owner t).filter (· != c)).drop 1) := by
    refine h.edited_link hc ?_ fun u hu => under_putFirst_of_ne hu c _
    rw [under_putFirst, ← children_eq_under, h.children_detach]
  unfold Forest.setChild?
  rw [hc, if_neg (by simp), if_neg (by simpa using hnew)]
  simp only [hfirst]
  refine ⟨_, rfl, ?_⟩
  cases ((f.children owner t).filter (· != c)).head? with
  | none => exact hlink
  | some o => exact hlink.pushOut o

theorem edited_clear {t : Title} {cs : List NodeId} (hlist : f.children owner t = c :: cs) :
    ∃ f', f.clearChild owner t = (some c, f') ∧ Edited f f' c none none owner t cs := by
  have hfirst : f.child? owner t = some c := by rw [child?_eq_head?, hlist, List.head?_cons]
  refine ⟨f.detach c, by rw [Forest.clearChild, hfirst], ?_⟩
  constructor
  case size => exact size_detach f c
  case kind => exact kind_detach f c
  case range => exact range_detach f c
  case parent =>
      intro n
      rw [if_neg (Option.some_ne_none n), parent_detach]
  case list =>
      have hnodup := h.nodup_children owner t
      rw [hlist, List.nodup_cons] at hnodup
      rw [h.children_detach, hlist, List.filter_cons_of_neg (by simp), filter_of_not_mem hnodup.1]
  case others =>
      intro n u _
      exact h.children_detach c n u

theorem exists_title {n p : NodeId} (hp : f.parent n = some p) :
    ∃ t, f.titleInParent? n = some t ∧ n ∈ f.children p t := by
  obtain ⟨s, hs, hsn⟩ := List.mem_map.mp ((h.parent_iff p n).mp hp)
  obtain ⟨r, hr⟩ : ∃ r, (f.slots p).find? (·.2 == n) = some r :=
    Option.isSome_iff_exists.mp (List.find?_isSome.mpr ⟨s, hs, by simpa using hsn⟩)
  have hrn : r.2 = n := by simpa using List.find?_some hr
  refine ⟨r.1, ?_, ?_⟩
  · simp [titleInParent?, hp, hr]
  · refine List.mem_map.mpr ⟨r, List.mem_filter.mpr ⟨List.mem_of_find?_eq_some hr, ?_⟩, hrn⟩
    exact beq_self_eq_true r.1

theorem edited_replace {old new p : NodeId} (hne : old ≠ new) (hp : f.parent old = some p)
    (hc : f.canAttach p new = true) :
    ∃ f' t before after, f.titleInParent? old = some t ∧
      (f.children p t).filter (· != new) = before ++ old :: after ∧
      f.replace? old new = some (true, f') ∧
      Edited f f' new (some p) (some old) p t (before ++ new :: after) := by
  obtain ⟨t, htitle, hmem⟩ := h.exists_title hp
  have hdetached := h.detach new
  have hkept : old ∈ (f.children p t).filter (· != new) :=
    List.mem_filter.mpr ⟨hmem, by simpa using hne⟩
  obtain ⟨before, after, hsplit⟩ := List.append_of_mem hkept
  have hlist : (f.detach new).children p t = before ++ old :: after := by
    rw [h.children_detach, hsplit]
  have hold : old ∈ (f.detach new).children p t := by rw [hlist]; simp
  have hlink : Edited f ((f.detach new).link p new fun slots =>
      slots.map fun s => if s.2 = old then (s.1, new) else s) new (some p) none p t
        (before ++ new :: after) := by
    -- the list holds the old node once, and no other list holds it
    refine h.edited_link hc ?_ fun u hu => ?_
    · have honce := hdetached.nodup_children p t
      rw [hlist, List.nodup_middle, List.nodup_cons, List.mem_append, not_or] at honce
      rw [under_replace, ← children_eq_under, hlist, List.map_append, List.map_cons, if_pos rfl,
        map_replace_of_not_mem honce.1.1, map_replace_of_not_mem honce.1.2]
    · rw [under_replace, ← children_eq_under]
      exact map_replace_of_not_mem (hdetached.not_mem_children hu.symm hold)
  have hslot : ((f.detach new).slots p).any (·.2 == old) = true := by
    obtain ⟨s, hs, hsn⟩ := List.mem_map.mp (mem_childIds_of_mem_children hold)
    exact List.any_eq_true.mpr ⟨s, hs, by simpa using hsn⟩
  have hcontains : f.contains old = true := decide_eq_true (lt_size_of_parent hp)
  refine ⟨_, t, before, after, htitle, hsplit, ?_, hlink.pushOut old⟩
  simp only [Forest.replace?, hcontains, hne, hp, hc, hslot, Bool.not_true, Bool.false_eq_true,
    if_false, if_true]

end WellLinked

/-- What the edits that are not refused do to a forest whose links agree.  Adding at the end or at a
position moves the node there; setting a child changes nothing if it is the first one already, and
otherwise pushes the first of the other children out; clearing takes the first child out; replacing
puts a node into the place of another one, unless that one has no place or is the same node. -/
theorem edits_exact (h : f.WellLinked) :
    (∀ owner t c, f.canAttach owner c = true →
      ∃ f', f.appendChild? owner t c = some f' ∧ Edited f f' c (some owner) none owner t
        ((f.children owner t).filter (· != c) ++ [c])) ∧
    (∀ owner t i c, f.canAttach owner c = true →
      ∃ f', f.insertChild? owner t i c = some f' ∧ Edited f f' c (some owner) none owner t
        (((f.children owner t).filter (· != c)).take i ++
          c :: ((f.children owner t).filter (· != c)).drop i)) ∧
    (∀ owner t c, f.canAttach owner c = true →
      (f.child? owner t = some c → f.setChild? owner t c = some (none, f)) ∧
      (f.child? owner t ≠ some c →
        ∃ f', f.setChild? owner t c = some (((f.children owner t).filter (· != c)).head?, f') ∧
          Edited f f' c (some owner) ((f.children owner t).filter (· != c)).head? owner t
            (c :: ((f.children owner t).filter (· != c)).drop 1))) ∧
    (∀ owner t, (f.children owner t = [] → f.clearChild owner t = (none, f)) ∧
      ∀ c cs, f.children owner t = c :: cs →
        ∃ f', f.clearChild owner t = (some c, f') ∧ Edited f f' c none none owner t cs) ∧
    (∀ old new, f.contains old = true →
      ((old = new ∨ f.parent old = none) →
        f.replace? old new = some ((f.parent old).isSome, f)) ∧
      ∀ p, old ≠ new → f.parent old = some p → f.canAttach p new = true →
        ∃ f' t before after, f.titleInParent? old = some t ∧
          (f.children p t).filter (· != new) = before ++ old :: after ∧
          f.replace? old new = some (true, f') ∧
          Edited f f' new (some p) (some old) p t (before ++ new :: after)) := by
  refine ⟨fun owner t c hc => h.edited_append hc t, fun owner t i c hc => h.edited_insert hc t i,
    fun owner t c hc => ⟨fun hfirst => ?_, h.edited_set hc t⟩,
    fun owner t => ⟨fun hnone => ?_, fun c cs => h.edited_clear⟩,
    fun old new hold => ⟨?_, fun p hne hp hc => h.edited_replace hne hp hc⟩⟩
  · rw [setChild?, hc, if_neg (by simp), if_pos (by simpa using hfirst)]
  · rw [clearChild, child?_eq_head?, hnone, List.head?_nil]
  · rintro (rfl | hroot)
    · simp [replace?, hold]
    · unfold replace?
      rw [hold, hroot, if_neg (by simp)]
      split <;> rfl

/-- A block of three statements, and a node outside. -/
def threeStatements : Forest :=
  performAll {} [.allocate .blockStatement {}, .allocate .emptyStatement {},
    .allocate .emptyStatement {}, .allocate .emptyStatement {}, .append 0 .statements 1,
    .append 0 .statements 2, .append 0 .statements 3, .allocate .emptyStatement {}]

/-- The first of three statements is moved to the end; the third one, set as the first child, pushes
the first one out. -/
theorem edits_exact_threeStatements :
    (∃ f', threeStatements.appendChild? 0 .statements 1 = some f' ∧
      f'.children 0 .statements = [2, 3, 1]) ∧
    ∃ f', threeStatements.setChild? 0 .statements 3 = some (some 1, f') ∧
      f'.children 0 .statements = [3, 2] ∧ f'.parent 1 = none := by
  have hlinks : threeStatements.WellLinked := WellLinked.empty.performAll _
  obtain ⟨happend, -, hset, -⟩ := edits_exact hlinks
  obtain ⟨f', hf', hedited⟩ := happend 0 .statements 1 (by decide)
  obtain ⟨f'', hf'', hedited'⟩ := (hset 0 .statements 3 (by decide)).2 (by decide)
  refine ⟨⟨f', hf', hedited.list⟩, f'', hf'', hedited'.list, ?_⟩
  rw [hedited'.parent]
  exact if_pos rfl

/-- A statement that is to replace itself keeps its parent, and one that is to replace a node
outside of all lists stays in its own. -/
theorem replace_without_move :
    threeStatements.WellLinked ∧
    (∃ f', threeStatements.replace? 2 2 = some (true, f') ∧ f'.parent 2 = some 0) ∧
    (∃ f', threeStatements.replace? 4 2 = some (false, f') ∧
      f'.children 0 .statements = [1, 2, 3] ∧ f'.parent 2 = some 0) :=
  ⟨WellLinked.empty.performAll _, ⟨_, rfl, by decide⟩, _, rfl, by decide, by decide⟩

end DualSyntax.Forest
