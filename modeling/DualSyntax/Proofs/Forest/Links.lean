import DualSyntax.Proofs.Forest.Data
import Mathlib.Data.Fintype.Pigeonhole
import Mathlib.Data.List.Flatten
import Mathlib.Logic.Relation

/-!
# Links

The links of a forest agree if a node names as its parent exactly the node in whose slots it occurs,
occurs there once, and is never above itself.  Every edit keeps this, so it holds of every forest
that edits make.  All edits that move a node do the same in the end: they put it below an owner and
may push one of the children of the owner out; `WellLinked.moved` says once what that keeps.
-/

namespace DualSyntax.Forest

/-- The second node is the parent of the first. -/
def Below (f : Forest) (c p : NodeId) : Prop := f.parent c = some p

/-- The links of a forest agree and have no cycle. -/
structure WellLinked (f : Forest) : Prop where
  parent_iff : ∀ p c, f.parent c = some p ↔ c ∈ f.childIds p
  /-- Over all slots of all nodes, no node occurs twice. -/
  once : ((List.range f.size).flatMap f.childIds).Nodup
  acyclic : ∀ n, ¬ Relation.TransGen f.Below n n

variable {f : Forest}

/-! ## The nodes above a node -/

/-- The node that many steps above another. -/
def up (f : Forest) (n : NodeId) : Nat → Option NodeId
  | 0 => some n
  | i + 1 => (f.up n i).bind f.parent

theorem up_succ_of_parent {n p : NodeId} (h : f.parent n = some p) (i : Nat) :
    f.up n (i + 1) = f.up p i := by
  induction i with
  | zero => simp [up, h]
  | succ i ih => rw [up, ih, up]

theorem mem_ancestorsUpTo {n m : NodeId} {i k : Nat} (h : f.up n (i + 1) = some m) (hk : i < k) :
    m ∈ f.ancestorsUpTo k n := by
  induction i generalizing n k with
  | zero =>
      obtain ⟨k, rfl⟩ : ∃ j, k = j + 1 := ⟨k - 1, by omega⟩
      have hp : f.parent n = some m := by simpa [up] using h
      simp [ancestorsUpTo, hp]
  | succ i ih =>
      obtain ⟨k, rfl⟩ : ∃ j, k = j + 1 := ⟨k - 1, by omega⟩
      cases hp : f.parent n with
      | none =>
          exfalso
          have hnone : ∀ j, f.up n (j + 1) = none := by
            intro j
            induction j with
            | zero => simp [up, hp]
            | succ j ihj => rw [up, ihj, Option.bind_none]
          rw [hnone] at h
          cases h
      | some p =>
          rw [up_succ_of_parent hp] at h
          rw [ancestorsUpTo, hp]
          exact List.mem_cons_of_mem _ (ih h (by omega))

theorem exists_up_of_transGen {n m : NodeId} (h : Relation.TransGen f.Below n m) :
    ∃ i, f.up n (i + 1) = some m := by
  induction h with
  | single h => exact ⟨0, by simpa [up, Below] using h⟩
  | tail _ h ih =>
      obtain ⟨i, hi⟩ := ih
      exact ⟨i + 1, by rw [up, hi]; exact h⟩

theorem transGen_of_up {n a b : NodeId} {i j : Nat} (ha : f.up n i = some a) (hij : i < j)
    (hb : f.up n j = some b) : Relation.TransGen f.Below a b := by
  obtain ⟨k, rfl⟩ : ∃ k, j = i + k + 1 := ⟨j - i - 1, by omega⟩
  clear hij
  induction k generalizing b with
  | zero =>
      rw [Nat.add_zero, up, ha] at hb
      exact .single hb
  | succ k ih =>
      rw [up] at hb
      obtain ⟨c, hc, hb⟩ := Option.bind_eq_some_iff.mp hb
      exact .tail (ih hc) hb

theorem exists_up_of_le {n m : NodeId} {i j : Nat} (h : f.up n i = some m) (hj : j ≤ i) :
    ∃ c, f.up n j = some c := by
  induction i generalizing m with
  | zero =>
      obtain rfl : j = 0 := by omega
      exact ⟨m, h⟩
  | succ i ih =>
      rcases Nat.lt_or_ge i j with hlt | hge
      · obtain rfl : j = i + 1 := by omega
        exact ⟨m, h⟩
      · obtain ⟨c, hc, -⟩ := Option.bind_eq_some_iff.mp h
        exact ih hc hge

open Classical in
noncomputable def below (f : Forest) (n : NodeId) : Finset NodeId :=
  (Finset.range f.size).filter fun m => Relation.TransGen f.Below m n

theorem card_below_le (f : Forest) (n : NodeId) : (below f n).card ≤ f.size :=
  calc (below f n).card ≤ (Finset.range f.size).card := Finset.card_le_card (by simp [below])
    _ = f.size := Finset.card_range f.size

namespace WellLinked

/-- Without a cycle the bounded search for the nodes above a node finds all of them. -/
theorem mem_ancestors (h : f.WellLinked) {n m : NodeId} (hm : Relation.TransGen f.Below n m) :
    m ∈ f.ancestors n := by
  obtain ⟨i, hi⟩ := exists_up_of_transGen hm
  rcases Nat.lt_or_ge i f.size with hlt | hge
  · exact mem_ancestorsUpTo hi hlt
  · -- more steps than nodes: some node is met twice, and stands above itself
    exfalso
    have hnode : ∀ j : Fin (f.size + 1), ∃ c, f.up n j = some c ∧ c < f.size := by
      intro j
      have hj := j.isLt
      obtain ⟨c, hc⟩ := exists_up_of_le hi (j := j) (by omega)
      obtain ⟨p, hp⟩ := exists_up_of_le hi (j := j + 1) (by omega)
      rw [up, hc, Option.bind_some] at hp
      exact ⟨c, hc, lt_size_of_parent hp⟩
    choose c hc hlt using hnode
    obtain ⟨a, b, hne, hab⟩ := Fintype.exists_ne_map_eq_of_card_lt
      (fun j => (⟨c j, hlt j⟩ : Fin f.size)) (by simp)
    have heq : c a = c b := congrArg Fin.val hab
    rcases Nat.lt_or_gt_of_ne (Fin.val_ne_of_ne hne) with hlt' | hgt
    · exact h.acyclic (c a) (transGen_of_up (hc a) hlt' (heq ▸ hc b))
    · exact h.acyclic (c b) (transGen_of_up (hc b) hgt (heq ▸ hc a))

/-- There is less below a child than below its parent. -/
theorem card_below_lt (h : f.WellLinked) {n c : NodeId} (hc : c ∈ f.childIds n) :
    (below f c).card < (below f n).card := by
  have hparent : f.Below c n := (h.parent_iff n c).mpr hc
  apply Finset.card_lt_card
  rw [Finset.ssubset_iff_of_subset]
  · refine ⟨c, ?_, ?_⟩
    · simpa [below] using ⟨lt_size_of_parent hparent, .single hparent⟩
    · simpa [below] using fun _ => h.acyclic c
  · intro m hm
    simp only [below, Finset.mem_filter] at hm ⊢
    exact ⟨hm.1, .tail hm.2 hparent⟩

/-- A node that may be put below another is not above it. -/
theorem not_above_of_canAttach (h : f.WellLinked) {owner c : NodeId}
    (hc : f.canAttach owner c = true) :
    owner < f.size ∧ c < f.size ∧ owner ≠ c ∧ ¬ Relation.TransGen f.Below owner c := by
  simp only [canAttach, contains, Bool.and_eq_true, decide_eq_true_eq, bne_iff_ne, ne_eq,
    Bool.not_eq_true'] at hc
  obtain ⟨⟨⟨howner, hlt⟩, hne⟩, hmem⟩ := hc
  refine ⟨howner, hlt, hne, ?_⟩
  intro habove
  have hcontains := List.contains_iff_mem.mpr (h.mem_ancestors habove)
  rw [hmem] at hcontains
  cases hcontains

/-! ## What a move keeps -/

/-- Adding one link adds only chains that go through it. -/
theorem transGen_split {r r' : NodeId → NodeId → Prop} {x y : NodeId}
    (hr : ∀ a b, r' a b → r a b ∨ (a = x ∧ b = y)) {a b : NodeId}
    (h : Relation.TransGen r' a b) :
    Relation.TransGen r a b ∨ Relation.ReflTransGen r a x ∧ Relation.ReflTransGen r y b := by
  induction h with
  | single hab =>
      rcases hr _ _ hab with h | ⟨rfl, rfl⟩
      · exact .inl (.single h)
      · exact .inr ⟨.refl, .refl⟩
  | tail _ hbc ih =>
      rcases hr _ _ hbc with h | ⟨rfl, rfl⟩
      · rcases ih with ih | ⟨ha, hb⟩
        · exact .inl (.tail ih h)
        · exact .inr ⟨ha, .tail hb h⟩
      · rcases ih with ih | ⟨ha, -⟩
        · exact .inr ⟨ih.to_reflTransGen, .refl⟩
        · exact .inr ⟨ha, .refl⟩

theorem nodup_childIds (h : f.WellLinked) (p : NodeId) : (f.childIds p).Nodup := by
  rcases Nat.lt_or_ge p f.size with hlt | hge
  · exact (List.nodup_flatMap.mp h.once).1 p (List.mem_range.mpr hlt)
  · rw [childIds, slots_of_size_le hge]
    exact .nil

theorem nodup_children (h : f.WellLinked) (n : NodeId) (t : Title) : (f.children n t).Nodup :=
  (h.nodup_childIds n).sublist (List.filter_sublist.map _)

theorem parent_of_mem_children (h : f.WellLinked) {n m : NodeId} {t : Title}
    (hm : m ∈ f.children n t) : f.parent m = some n :=
  (h.parent_iff n m).mpr (mem_childIds_of_mem_children hm)

/-- A node stands under one title only. -/
theorem not_mem_children (h : f.WellLinked) {n m : NodeId} {t t' : Title} (hne : t ≠ t')
    (hm : m ∈ f.children n t) : m ∉ f.children n t' := by
  intro hm'
  obtain ⟨s, hs, hsm⟩ := List.mem_map.mp hm
  obtain ⟨s', hs', hsm'⟩ := List.mem_map.mp hm'
  obtain ⟨hslot, htitle⟩ := List.mem_filter.mp hs
  obtain ⟨hslot', htitle'⟩ := List.mem_filter.mp hs'
  have hsame : s = s' :=
    List.inj_on_of_nodup_map (h.nodup_childIds n) hslot hslot' (hsm.trans hsm'.symm)
  rw [beq_iff_eq] at htitle htitle'
  exact hne (htitle.symm.trans ((congrArg Prod.fst hsame).trans htitle'))

theorem of_nodup (hparent : ∀ p c, f.parent c = some p ↔ c ∈ f.childIds p)
    (hnodup : ∀ p, (f.childIds p).Nodup) (hacyclic : ∀ n, ¬ Relation.TransGen f.Below n n) :
    f.WellLinked := by
  refine ⟨hparent, List.nodup_flatMap.mpr ⟨fun p _ => hnodup p, ?_⟩, hacyclic⟩
  refine List.nodup_range.imp ?_
  intro p q hpq c hp hq
  have h := ((hparent p c).mpr hp).symm.trans ((hparent q c).mpr hq)
  cases h
  exact hpq rfl

theorem parent_lt (h : f.WellLinked) {p c : NodeId} (hp : f.parent c = some p) : p < f.size :=
  lt_size_of_mem_childIds ((h.parent_iff p c).mp hp)

theorem empty : WellLinked {} := by
  have hnone : ∀ n, ({} : Forest).parent n = none := fun n => parent_of_size_le (Nat.zero_le n)
  have hslots : ∀ n, ({} : Forest).slots n = [] := fun n => slots_of_size_le (Nat.zero_le n)
  refine of_nodup (fun p c => ?_) (fun p => ?_) (fun n hn => ?_)
  · simp [hnone, childIds, hslots]
  · simp [childIds, hslots]
  · obtain ⟨i, hi⟩ := exists_up_of_transGen hn
    obtain ⟨c, -, hc⟩ := Option.bind_eq_some_iff.mp hi
    rw [hnone] at hc
    cases hc

theorem allocate (h : f.WellLinked) (kind : NodeKind) (range : TextRange) :
    (f.allocate kind range).2.WellLinked := by
  have hbelow : (f.allocate kind range).2.Below = f.Below := by
    funext c p
    simp [Below]
  refine of_nodup (fun p c => ?_) (fun p => ?_) (fun n => ?_)
  · simpa [childIds] using h.parent_iff p c
  · simpa [childIds] using h.nodup_childIds p
  · rw [hbelow]
    exact h.acyclic n

theorem detach (h : f.WellLinked) (n : NodeId) : (f.detach n).WellLinked := by
  cases hp : f.parent n with
  | none => rwa [detach_of_parent_eq_none hp]
  | some p =>
      have hids (q : NodeId) : (f.detach n).childIds q = (f.childIds q).filter (· != n) := by
        rw [childIds, slots_detach hp (h.parent_lt hp)]
        split
        · rw [childIds, List.filter_map]
          rfl
        · next hq =>
          symm
          rw [← childIds, List.filter_eq_self]
          intro c hc
          have hne : c ≠ n := by
            rintro rfl
            have hq' := (h.parent_iff q c).mpr hc
            rw [hp] at hq'
            exact hq (Option.some.inj hq').symm
          simpa using hne
      refine of_nodup (fun q c => ?_) (fun q => ?_) (fun m hm => ?_)
      · rw [parent_detach, hids, List.mem_filter, ← h.parent_iff q c]
        by_cases hc : c = n <;> simp [hc]
      · rw [hids]
        exact (h.nodup_childIds q).filter _
      · refine h.acyclic m (Relation.TransGen.mono ?_ m m hm)
        intro a b hab
        rw [Below, parent_detach] at hab
        split at hab
        · cases hab
        · exact hab

/-- Moving a detached node below an owner that is not below it.  The owner may lose one child on
the way, which is then detached. -/
theorem moved {f' : Forest} (h : f.WellLinked) (owner c : NodeId) (out : Option NodeId)
    (hroot : f.parent c = none) (hne : owner ≠ c) (habove : ¬ Relation.TransGen f.Below owner c)
    (hout : ∀ o ∈ out, o ∈ f.childIds owner)
    (hparent : ∀ m, f'.parent m =
      if m = c then some owner else if some m = out then none else f.parent m)
    (hothers : ∀ p, p ≠ owner → f'.childIds p = f.childIds p)
    (howner : (f'.childIds owner).Perm (c :: (f.childIds owner).filter (some · ≠ out))) :
    f'.WellLinked := by
  have hc : ∀ p, c ∉ f.childIds p := by
    intro p hp
    have := (h.parent_iff p c).mpr hp
    rw [hroot] at this
    cases this
  refine of_nodup (fun p m => ?_) (fun p => ?_) (fun n hn => ?_)
  · rw [hparent]
    by_cases hp : p = owner
    · subst hp
      rw [howner.mem_iff, List.mem_cons, List.mem_filter, ← h.parent_iff p m]
      by_cases hm : m = c
      · simp [hm]
      · by_cases ho : some m = out <;> simp [hm, ho]
    · rw [hothers p hp, ← h.parent_iff p m]
      by_cases hm : m = c
      · subst hm
        simp [hroot, Ne.symm hp]
      · by_cases ho : some m = out
        · have hmo := (h.parent_iff owner m).mpr (hout m ho.symm)
          simp [hm, ho, hmo, Ne.symm hp]
        · simp [hm, ho]
  · by_cases hp : p = owner
    · subst hp
      rw [howner.nodup_iff, List.nodup_cons]
      refine ⟨fun hmem => hc p (List.mem_of_mem_filter hmem), (h.nodup_childIds p).filter _⟩
    · rw [hothers p hp]
      exact h.nodup_childIds p
  · -- a new cycle would go through the new link, so the owner would stand below the node before
    have hr : ∀ a b, f'.Below a b → f.Below a b ∨ (a = c ∧ b = owner) := by
      intro a b hab
      rw [Below, hparent] at hab
      split at hab
      · next ha => exact .inr ⟨ha, (Option.some.inj hab).symm⟩
      · split at hab
        · cases hab
        · exact .inl hab
    rcases transGen_split hr hn with hold | ⟨hnc, hon⟩
    · exact h.acyclic n hold
    · rcases Relation.reflTransGen_iff_eq_or_transGen.mp (hon.trans hnc) with heq | htrans
      · exact hne heq.symm
      · exact habove htrans

/-! ## The edits -/

theorem not_above_detach {owner c n : NodeId} (habove : ¬ Relation.TransGen f.Below owner c) :
    ¬ Relation.TransGen (f.detach n).Below owner c := by
  intro h
  refine habove (Relation.TransGen.mono ?_ owner c h)
  intro a b hab
  rw [Below, parent_detach] at hab
  split at hab
  · cases hab
  · exact hab

/-- A move that pushes nothing out: the node is put somewhere among the slots of its owner. -/
theorem linked (h : f.WellLinked) {owner c : NodeId} (hc : f.canAttach owner c = true)
    {change : List (Title × NodeId) → List (Title × NodeId)}
    (hchange : ∀ ss, ((change ss).map (·.2)).Perm (c :: ss.map (·.2))) :
    ((f.detach c).link owner c change).WellLinked := by
  obtain ⟨howner, hlt, hne, habove⟩ := h.not_above_of_canAttach hc
  refine (h.detach c).moved owner c none ?_ hne
    (not_above_detach habove) ?_ ?_ ?_ ?_
  · rw [parent_detach, if_pos rfl]
  · rintro o ⟨⟩
  · intro m
    rw [parent_link (by simpa using hlt)]
    simp
  · intro p hp
    rw [childIds, slots_link (by simpa using howner), if_neg hp, childIds]
  · rw [childIds, slots_link (by simpa using howner), if_pos rfl]
    simpa [childIds] using hchange ((f.detach c).slots owner)

theorem appendChild? (h : f.WellLinked) {owner c : NodeId} {t : Title} {f' : Forest}
    (hf' : f.appendChild? owner t c = some f') : f'.WellLinked := by
  rw [Forest.appendChild?] at hf'
  split at hf'
  · next hc =>
    cases hf'
    refine h.linked hc ?_
    intro ss
    simp
  · cases hf'

theorem perm_insertSlot (t : Title) (c : NodeId) (i : Nat) (ss : List (Title × NodeId)) :
    ((insertSlot t c i ss).map (·.2)).Perm (c :: ss.map (·.2)) := by
  induction ss generalizing i with
  | nil => simp [insertSlot]
  | cons s rest ih =>
      have hstep (j : Nat) : ((s :: insertSlot t c j rest).map (·.2)).Perm
          (c :: (s :: rest).map (·.2)) :=
        ((ih j).cons s.2).trans (List.Perm.swap c s.2 _)
      rw [insertSlot.eq_def]
      dsimp only
      split
      · cases i with
        | zero => simp
        | succ i => exact hstep i
      · exact hstep i

theorem insertChild? (h : f.WellLinked) {owner c : NodeId} {t : Title} {i : Nat} {f' : Forest}
    (hf' : f.insertChild? owner t i c = some f') : f'.WellLinked := by
  rw [Forest.insertChild?] at hf'
  split at hf'
  · next hc =>
    cases hf'
    exact h.linked hc (perm_insertSlot t c i)
  · cases hf'

theorem appendAll (h : f.WellLinked) (owner : NodeId) (parts : List (Title × NodeId)) :
    (f.appendAll owner parts).2.WellLinked := by
  induction parts generalizing f with
  | nil => exact h
  | cons part rest ih =>
      rw [Forest.appendAll]
      split
      · next hf' => exact ih (h.appendChild? hf')
      · exact h

theorem filter_ne_of_not_mem {ids : List NodeId} {o : NodeId} (h : o ∉ ids) :
    ids.filter (some · ≠ some o) = ids := by
  rw [List.filter_eq_self]
  intro m hm
  have hne : m ≠ o := fun heq => h (heq ▸ hm)
  simpa using hne

/-- The first slot under a title gives up its node to the one that takes its place. -/
theorem perm_putFirst (t : Title) (c : NodeId) {ss : List (Title × NodeId)}
    (hnodup : (ss.map (·.2)).Nodup) :
    ((putFirst t c ss).map (·.2)).Perm
      (c :: (ss.map (·.2)).filter (some · ≠ (ss.find? (·.1 == t)).map (·.2))) := by
  induction ss with
  | nil => simp [putFirst]
  | cons s rest ih =>
      rw [List.map_cons, List.nodup_cons] at hnodup
      rw [putFirst]
      by_cases hs : s.1 = t
      · have hout : ((s :: rest).find? (·.1 == t)).map (·.2) = some s.2 := by simp [hs]
        rw [if_pos hs, hout, List.map_cons, List.map_cons, List.filter_cons_of_neg (by simp),
          filter_ne_of_not_mem hnodup.1]
      · have hout : ((s :: rest).find? (·.1 == t)).map (·.2) =
            (rest.find? (·.1 == t)).map (·.2) := by
          simp [hs]
        have hkeep : some s.2 ≠ (rest.find? (·.1 == t)).map (·.2) := by
          intro heq
          obtain ⟨r, hr, hrs⟩ := Option.map_eq_some_iff.mp heq.symm
          exact hnodup.1 (hrs ▸ List.mem_map_of_mem (List.mem_of_find?_eq_some hr))
        rw [if_neg hs, hout, List.map_cons, List.map_cons,
          List.filter_cons_of_pos (by simpa using hkeep)]
        exact ((ih hnodup.2).cons s.2).trans (List.Perm.swap c s.2 _)

theorem setChild? (h : f.WellLinked) {owner c : NodeId} {t : Title} {old : Option NodeId}
    {f' : Forest} (hf' : f.setChild? owner t c = some (old, f')) : f'.WellLinked := by
  rw [Forest.setChild?] at hf'
  split at hf'
  · cases hf'
  · next hc =>
    split at hf'
    · cases hf'
      exact h
    · have hc : f.canAttach owner c = true := by simpa using hc
      obtain ⟨howner, hlt, hne, habove⟩ := h.not_above_of_canAttach hc
      have howner' : owner < (f.detach c).size := by simpa using howner
      have hlt' : c < (f.detach c).size := by simpa using hlt
      have hd := h.detach c
      have hold : ∀ o ∈ (f.detach c).child? owner t, o ∈ (f.detach c).childIds owner := by
        intro o ho
        obtain ⟨r, hr, rfl⟩ := Option.map_eq_some_iff.mp ho
        exact List.mem_map_of_mem (List.mem_of_find?_eq_some hr)
      have hroot : (f.detach c).parent c = none := by rw [parent_detach, if_pos rfl]
      -- the node that is pushed out is a child of the owner, and the new child is not one yet
      have hne' : ∀ o ∈ (f.detach c).child? owner t, o ≠ c := by
        rintro o ho rfl
        have hp := (hd.parent_iff owner o).mpr (hold o ho)
        rw [hroot] at hp
        cases hp
      simp only [Option.some.injEq, Prod.mk.injEq] at hf'
      obtain ⟨-, rfl⟩ := hf'
      refine hd.moved owner c ((f.detach c).child? owner t) hroot hne
        (not_above_detach habove) hold ?_ ?_ ?_
      · intro m
        cases ho : (f.detach c).child? owner t with
        | none => simp [parent_link hlt']
        | some o =>
            have hoc := hne' o ho
            rw [Option.elim_some, parent_modify_clear, parent_link hlt']
            by_cases hm : m = o
            · simp [hm, hoc]
            · simp [hm]
      · intro p hp
        cases (f.detach c).child? owner t with
        | none => simp [childIds, slots_link howner', hp]
        | some o =>
            rw [Option.elim_some, childIds, slots_modify rfl, slots_link howner', if_neg hp,
              childIds]
      · have hperm := perm_putFirst t c (hd.nodup_childIds owner)
        cases ho : (f.detach c).child? owner t with
        | none =>
            rw [child?] at ho
            simpa only [Option.elim_none, childIds, slots_link howner', if_pos, ho] using hperm
        | some o =>
            rw [child?] at ho
            rw [Option.elim_some, childIds, slots_modify rfl, slots_link howner', if_pos rfl, ← ho]
            exact hperm

theorem perm_map_replace {old new : NodeId} {ss : List (Title × NodeId)}
    (hmem : old ∈ ss.map (·.2)) (hnodup : (ss.map (·.2)).Nodup) :
    ((ss.map fun s => if s.2 = old then (s.1, new) else s).map (·.2)).Perm
      (new :: (ss.map (·.2)).filter (some · ≠ some old)) := by
  induction ss with
  | nil => cases hmem
  | cons s rest ih =>
      rw [List.map_cons, List.nodup_cons] at hnodup
      by_cases hs : s.2 = old
      · have hnot : old ∉ rest.map (·.2) := hs ▸ hnodup.1
        have hrest : (rest.map fun s => if s.2 = old then (s.1, new) else s) = rest := by
          conv_rhs => rw [← List.map_id rest]
          refine List.map_congr_left ?_
          intro r hr
          have hne : r.2 ≠ old := fun heq => hnot (heq ▸ List.mem_map_of_mem hr)
          simp [hne]
        rw [List.map_cons, if_pos hs, List.map_cons, hrest, List.map_cons,
          List.filter_cons_of_neg (by simp [hs]), filter_ne_of_not_mem hnot]
      · rw [List.map_cons] at hmem
        have hmem' : old ∈ rest.map (·.2) := by
          rcases List.mem_cons.mp hmem with heq | hmem
          · exact absurd heq.symm hs
          · exact hmem
        rw [List.map_cons, if_neg hs, List.map_cons, List.map_cons,
          List.filter_cons_of_pos (by simpa using hs)]
        exact ((ih hmem' hnodup.2).cons s.2).trans (List.Perm.swap new s.2 _)

theorem replace? (h : f.WellLinked) {old new : NodeId} {done : Bool} {f' : Forest}
    (hf' : f.replace? old new = some (done, f')) : f'.WellLinked := by
  rw [Forest.replace?] at hf'
  split at hf'
  · cases hf'
  · split at hf'
    · cases hf'
      exact h
    · next hne =>
      split at hf'
      · cases hf'
        exact h
      · next p hp =>
        split at hf'
        · cases hf'
        · next hc =>
          have hc : f.canAttach p new = true := by simpa using hc
          obtain ⟨howner, hlt, hpne, habove⟩ := h.not_above_of_canAttach hc
          have hd := h.detach new
          dsimp only at hf'
          split at hf'
          · have hold : (f.detach new).parent old = some p := by
              rw [parent_detach, if_neg hne, hp]
            have hmem := (hd.parent_iff p old).mp hold
            cases hf'
            refine hd.moved p new (some old) ?_ hpne
              (not_above_detach habove) ?_ ?_ ?_ ?_
            · rw [parent_detach, if_pos rfl]
            · rintro o ⟨⟩
              exact hmem
            · intro m
              rw [parent_modify_clear, parent_link (by simpa using hlt)]
              by_cases hm : m = old
              · simp [hm, hne]
              · simp [hm]
            · intro q hq
              rw [childIds, slots_modify rfl, slots_link (by simpa using howner), if_neg hq,
                childIds]
            · rw [childIds, slots_modify rfl, slots_link (by simpa using howner), if_pos rfl]
              exact perm_map_replace hmem (hd.nodup_childIds p)
          · cases hf'
            exact hd

theorem copyUpTo (source : Forest) (fuel : Nat) (n : NodeId) (h : f.WellLinked) :
    (copyUpTo source fuel n f).2.WellLinked := by
  induction fuel generalizing n f with
  | zero => exact h.allocate _ _
  | succ fuel ih =>
      rw [Forest.copyUpTo]
      dsimp only
      generalize hnew : f.allocate (source.kind n) (source.range n) = made
      have hmade : made.2.WellLinked := hnew ▸ h.allocate _ _
      generalize source.slots n = slots
      revert hmade
      generalize made.2 = g
      intro hg
      induction slots generalizing g with
      | nil => exact hg
      | cons s rest ihrest =>
          rw [List.foldl_cons]
          refine ihrest _ ?_
          have hcopy := ih s.2 hg
          cases happend : (Forest.copyUpTo source fuel s.2 g).2.appendChild? made.1 s.1
              (Forest.copyUpTo source fuel s.2 g).1 with
          | none => simpa [happend] using hcopy
          | some g' => simpa [happend] using hcopy.appendChild? happend

theorem clearChild (h : f.WellLinked) (owner : NodeId) (t : Title) :
    (f.clearChild owner t).2.WellLinked := by
  rw [Forest.clearChild]
  split
  · exact h
  · exact h.detach _

end WellLinked

/-! ## Sequences of edits -/

/-- A call that changes a forest. -/
inductive Edit where
  | allocate (kind : NodeKind) (range : TextRange)
  | setChild (owner : NodeId) (t : Title) (c : NodeId)
  | clearChild (owner : NodeId) (t : Title)
  | append (owner : NodeId) (t : Title) (c : NodeId)
  | extend (owner : NodeId) (t : Title) (cs : List NodeId)
  | insert (owner : NodeId) (t : Title) (i : Nat) (c : NodeId)
  | remove (n : NodeId)
  | replace (old new : NodeId)
  /-- Copies the tree below a node of another forest. -/
  | copy (source : Forest) (n : NodeId)

/-- The forest after a call, and whether the call was accepted. -/
def perform (f : Forest) : Edit → Bool × Forest
  | .allocate kind range => (true, (f.allocate kind range).2)
  | .setChild owner t c => ((f.setChild? owner t c).map fun r => (true, r.2)).getD (false, f)
  | .clearChild owner t => (true, (f.clearChild owner t).2)
  | .append owner t c => ((f.appendChild? owner t c).map (true, ·)).getD (false, f)
  | .extend owner t cs => f.appendAll owner (cs.map (t, ·))
  | .insert owner t i c => ((f.insertChild? owner t i c).map (true, ·)).getD (false, f)
  | .remove n => (true, f.detach n)
  | .replace old new => ((f.replace? old new).map fun r => (true, r.2)).getD (false, f)
  | .copy source n => (true, (f.copyFrom source n).2)

/-- The forest after a sequence of calls, rejected ones included. -/
def performAll (f : Forest) (edits : List Edit) : Forest :=
  edits.foldl (fun f e => (f.perform e).2) f

theorem WellLinked.perform (h : f.WellLinked) (e : Edit) : (f.perform e).2.WellLinked := by
  cases e with
  | allocate kind range => exact h.allocate kind range
  | setChild owner t c =>
      rw [Forest.perform]
      cases hset : f.setChild? owner t c with
      | none => exact h
      | some r =>
          obtain ⟨old, f'⟩ := r
          exact h.setChild? hset
  | clearChild owner t => exact h.clearChild owner t
  | append owner t c =>
      rw [Forest.perform]
      cases happend : f.appendChild? owner t c with
      | none => exact h
      | some f' => exact h.appendChild? happend
  | extend owner t cs => exact h.appendAll owner _
  | insert owner t i c =>
      rw [Forest.perform]
      cases hinsert : f.insertChild? owner t i c with
      | none => exact h
      | some f' => exact h.insertChild? hinsert
  | remove n => exact h.detach n
  | replace old new =>
      rw [Forest.perform]
      cases hreplace : f.replace? old new with
      | none => exact h
      | some r =>
          obtain ⟨done, f'⟩ := r
          exact h.replace? hreplace
  | copy source n => exact h.copyUpTo source _ n

theorem WellLinked.performAll (h : f.WellLinked) (edits : List Edit) :
    (f.performAll edits).WellLinked := by
  induction edits generalizing f with
  | nil => exact h
  | cons e rest ih => exact ih (h.perform e)

/-- A list of children is refused at the first child that cannot be attached; those before it have
been added. -/
theorem appendAll_refused {owner : NodeId} {parts : List (Title × NodeId)} {f' : Forest}
    (h : f.appendAll owner parts = (false, f')) :
    ∃ added t c rest, parts = added ++ (t, c) :: rest ∧ f.appendAll owner added = (true, f') ∧
      f'.canAttach owner c = false := by
  induction parts generalizing f with
  | nil => cases h
  | cons part rest ih =>
      rw [appendAll] at h
      split at h
      · next g hg =>
        obtain ⟨added, t, c, rest', rfl, hadded, hc⟩ := ih h
        refine ⟨part :: added, t, c, rest', rfl, ?_, hc⟩
        rw [appendAll, hg]
        exact hadded
      · next hnone =>
        cases h
        refine ⟨[], part.1, part.2, rest, rfl, rfl, ?_⟩
        rw [appendChild?] at hnone
        split at hnone
        · cases hnone
        · next hc => simpa using hc

/-- Whatever calls are made, starting from nothing, the links agree; and a rejected call changes
nothing, unless it was to add several children: then those before the refused one stay. -/
theorem links_of_edits (edits : List Edit) :
    (performAll {} edits).WellLinked ∧
    ∀ e f', (performAll {} edits).perform e = (false, f') →
      match e with
      | .extend owner t cs => ∃ added c rest, cs = added ++ c :: rest ∧
          (performAll {} edits).perform (.extend owner t added) = (true, f') ∧
          f'.canAttach owner c = false
      | _ => f' = performAll {} edits := by
  refine ⟨WellLinked.empty.performAll edits, ?_⟩
  intro e f' he
  generalize performAll {} edits = f at he
  cases e with
  | allocate | clearChild | remove | copy => cases he
  | setChild owner t c =>
      rw [perform] at he
      cases hset : f.setChild? owner t c <;> simp_all
  | append owner t c =>
      rw [perform] at he
      cases happend : f.appendChild? owner t c <;> simp_all
  | insert owner t i c =>
      rw [perform] at he
      cases hinsert : f.insertChild? owner t i c <;> simp_all
  | replace old new =>
      rw [perform] at he
      cases hreplace : f.replace? old new <;> simp_all
  | extend owner t cs =>
      obtain ⟨added, t', c, rest, hparts, hadded, hc⟩ := appendAll_refused he
      obtain ⟨cs₁, cs₂, rfl, rfl, hrest⟩ := List.map_eq_append_iff.mp hparts
      obtain ⟨c', rest', rfl, hhead, -⟩ := List.map_eq_cons_iff.mp hrest
      cases hhead
      exact ⟨cs₁, c, rest', rfl, hadded, hc⟩

/-- Three nodes, the second below the first. -/
def nestedBlocks : Forest :=
  performAll {} [.allocate .blockStatement {}, .allocate .blockStatement {},
    .allocate .emptyStatement {}, .append 0 .statements 1]

/-- Below the second of the three nodes the third can be added, and the first cannot. -/
theorem links_of_edits_nestedBlocks :
    nestedBlocks.WellLinked ∧ ∃ added c rest, [2, 0] = added ++ c :: rest ∧
      nestedBlocks.perform (.extend 1 .statements added) =
        (true, (nestedBlocks.perform (.extend 1 .statements [2, 0])).2) ∧
      (nestedBlocks.perform (.extend 1 .statements [2, 0])).2.canAttach 1 c = false := by
  have hrefused : nestedBlocks.perform (.extend 1 .statements [2, 0]) =
      (false, (nestedBlocks.perform (.extend 1 .statements [2, 0])).2) :=
    Prod.ext (by decide) rfl
  exact ⟨(links_of_edits _).1, (links_of_edits _).2 (.extend 1 .statements [2, 0]) _ hrefused⟩

/-- The list of the third and the first node is refused below the second, but the third node has
been added by then. -/
theorem extend_refused_not_unchanged :
    (nestedBlocks.perform (.extend 1 .statements [2, 0])).1 = false ∧
    nestedBlocks.parent 2 = none ∧
    (nestedBlocks.perform (.extend 1 .statements [2, 0])).2.parent 2 = some 1 := by
  decide

end DualSyntax.Forest
