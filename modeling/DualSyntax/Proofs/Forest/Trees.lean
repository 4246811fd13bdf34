import DualSyntax.Proofs.Forest.Agree
import DualSyntax.Proofs.Forest.Data
import Mathlib.Data.List.Forall2
import Mathlib.Data.List.Perm.Subperm
import Mathlib.Logic.Relation

/-!
# Trees in a forest

A tree apart from any forest is a kind with titled subtrees.  A node of a forest holds a tree if its
kind is that of the tree and, title by title, its children hold the subtrees; it reads as a tree if
it does so up to spellings and to parentheses around expressions.  A node that holds a tree agrees
with one that reads as it, once every parenthesized expression is replaced by its content.

A forest with a tree in it may have cycles elsewhere, but the nodes from the root of the tree down to
any of its subtrees are all different.  So the tree has no more levels than the forest has nodes.
-/

namespace DualSyntax

/-- A kind of node with titled subtrees. -/
inductive Tree where
  | node (kind : NodeKind) (parts : List (Title × Tree))

namespace Tree

def kind : Tree → NodeKind
  | node kind _ => kind

/-- The titled subtrees below the root. -/
def parts : Tree → List (Title × Tree)
  | node _ parts => parts

end Tree

/-- What hangs under a title, in order. -/
def Title.select {α : Type} (t : Title) (slots : List (Title × α)) : List α :=
  (slots.filter (·.1 == t)).map (·.2)

namespace Forest

variable {f f' g : Forest} {n m : NodeId} {t : Tree} {among among' : NodeId → Prop}

/-- The children of a node that structural agreement looks at. -/
def semanticSlots (f : Forest) (n : NodeId) : List (Title × NodeId) :=
  (f.slots n).filter (!·.1.isLexical)

/-- A node that holds a tree.  Punctuation, keywords and trivia below it do not count, nor does the
order of different titles. -/
inductive Holds (f : Forest) : NodeId → Tree → Prop
  | node {n : NodeId} {t : Tree} (hkind : f.kind n = t.kind)
      (hlength : ∀ title, title.isLexical = false →
        (f.children n title).length = (title.select t.parts).length)
      (hparts : ∀ title, title.isLexical = false →
        ∀ p ∈ (f.children n title).zip (title.select t.parts), f.Holds p.1 p.2) :
      f.Holds n t

/-- A node that reads as a tree: literals may be spelled, and expressions may stand in
parentheses.  All nodes on the way are among the given ones, and the content of parentheses was
made after them. -/
inductive Reads (f : Forest) (among : NodeId → Prop) : NodeId → Tree → Prop
  | node {n : NodeId} {t : Tree} (hn : among n) (hkind : t.kind.agrees (f.kind n) = true)
      (hbare : f.kind n ≠ .parenthesizedExpression)
      (htitles : (f.semanticSlots n).map (·.1) = t.parts.map (·.1))
      (hparts : ∀ p ∈ (f.semanticSlots n).zip t.parts, f.Reads among p.1.2 p.2.2) :
      f.Reads among n t
  | parenthesized {n c : NodeId} {t : Tree} (hn : among n)
      (hkind : f.kind n = .parenthesizedExpression) (hchild : f.child? n .expression = some c)
      (hlt : n < c) (h : f.Reads among c t) : f.Reads among n t

theorem Reads.mono (h : f.Reads among n t) (hsub : ∀ m, among m → among' m) :
    f.Reads among' n t := by
  induction h with
  | node hn hkind hbare htitles _ ih => exact .node (hsub _ hn) hkind hbare htitles ih
  | parenthesized hn hkind hchild hlt _ ih => exact .parenthesized (hsub _ hn) hkind hchild hlt ih

theorem Reads.root (h : f.Reads among n t) : among n := by
  cases h with
  | node hn => exact hn
  | parenthesized hn => exact hn

/-- A tree is read off the kinds and slots of its nodes alone. -/
theorem Reads.congr (h : f.Reads among n t)
    (hsame : ∀ m, among m → f'.kind m = f.kind m ∧ f'.slots m = f.slots m) :
    f'.Reads among n t := by
  induction h with
  | @node n t hn hkind hbare htitles hparts ih =>
      obtain ⟨hk, hs⟩ := hsame n hn
      have hslots : f'.semanticSlots n = f.semanticSlots n := by
        rw [semanticSlots, semanticSlots, hs]
      refine .node hn (by rwa [hk]) (by rwa [hk]) (by rwa [hslots]) ?_
      rw [hslots]
      exact ih
  | @parenthesized n c t hn hkind hchild hlt _ ih =>
      obtain ⟨hk, hs⟩ := hsame n hn
      refine .parenthesized hn (by rwa [hk]) ?_ hlt ih
      rw [child?, hs]
      exact hchild

/-! ## Children under a title -/

/-- Lexical slots hide nothing from other titles. -/
theorem children_eq_select_semantic {title : Title} (h : title.isLexical = false) :
    f.children n title = title.select (f.semanticSlots n) := by
  rw [children, Title.select, semanticSlots, List.filter_filter]
  congr 1
  apply List.filter_congr
  intro s _
  by_cases hs : s.1 = title
  · simp [hs, h]
  · simp [hs]

/-- Slots with the same titles in the same order are paired under each title as they are as a
whole. -/
theorem forall₂_select {α β : Type} {R : α → β → Prop} {xs : List (Title × α)}
    {ys : List (Title × β)} (htitles : xs.map (·.1) = ys.map (·.1))
    (h : ∀ p ∈ xs.zip ys, R p.1.2 p.2.2) (title : Title) :
    List.Forall₂ R (title.select xs) (title.select ys) := by
  induction xs generalizing ys with
  | nil =>
      cases ys with
      | nil => exact .nil
      | cons y ys => simp at htitles
  | cons x xs ih =>
      cases ys with
      | nil => simp at htitles
      | cons y ys =>
          rw [List.map_cons, List.map_cons, List.cons.injEq] at htitles
          obtain ⟨hhead, htail⟩ := htitles
          have hrest := ih htail fun p hp => h p (by simp [hp])
          have hpair : R x.2 y.2 := h (x, y) (by simp)
          unfold Title.select at hrest ⊢
          by_cases hx : x.1 = title
          · have hy : y.1 = title := hhead ▸ hx
            simp only [List.filter_cons, hx, hy, BEq.rfl, if_true, List.map_cons]
            exact .cons hpair hrest
          · have hy : y.1 ≠ title := hhead ▸ hx
            simpa [List.filter_cons, hx, hy] using hrest

/-- A node holds a tree if its slots that count hold the parts of the tree in the same order. -/
theorem Holds.of_slots (hkind : f.kind n = t.kind)
    (h : List.Forall₂ (fun s p => s.1 = p.1 ∧ f.Holds s.2 p.2) (f.semanticSlots n) t.parts) :
    f.Holds n t := by
  obtain ⟨hlength, hzip⟩ := List.forall₂_iff_zip.mp h
  have htitles : (f.semanticSlots n).map (·.1) = t.parts.map (·.1) := by
    rw [← List.forall₂_eq_eq_eq, List.forall₂_map_left_iff, List.forall₂_map_right_iff]
    exact h.imp fun _ _ hp => hp.1
  have hparts (title : Title) (htitle : title.isLexical = false) :
      List.Forall₂ f.Holds (f.children n title) (title.select t.parts) := by
    rw [children_eq_select_semantic htitle]
    exact forall₂_select htitles (fun p hp => (hzip hp).2) title
  refine .node hkind (fun title htitle => (hparts title htitle).length_eq) ?_
  exact fun title htitle p hp => (List.forall₂_iff_zip.mp (hparts title htitle)).2 hp

/-! ## Without parentheses -/

/-- What stands inside the parentheses around a node, to a bounded number of them. -/
def contentUpTo (f : Forest) : Nat → NodeId → NodeId
  | 0, n => n
  | fuel + 1, n =>
    match f.kind n, f.child? n .expression with
    | .parenthesizedExpression, some c => f.contentUpTo fuel c
    | _, _ => n

/-- What stands inside the parentheses around a node; a node without parentheses is its own
content. -/
def content (f : Forest) (n : NodeId) : NodeId := f.contentUpTo f.size n

/-- The forest with the content of every parenthesized expression in its place. -/
def unparenthesized (f : Forest) : Forest :=
  ⟨f.nodes.map fun d => { d with slots := d.slots.map fun s => (s.1, f.content s.2) }⟩

theorem contentUpTo_bare (h : f.kind n ≠ .parenthesizedExpression) (fuel : Nat) :
    f.contentUpTo fuel n = n := by
  cases fuel with
  | zero => rfl
  | succ fuel =>
      unfold contentUpTo
      split
      · contradiction
      · rfl

theorem data_unparenthesized (f : Forest) (n : NodeId) :
    f.unparenthesized.kind n = f.kind n ∧
      f.unparenthesized.slots n = (f.slots n).map fun s => (s.1, f.content s.2) := by
  unfold kind slots data unparenthesized
  cases h : f.nodes[n]? with
  | none => simp [h]
  | some d => simp [h]

theorem children_unparenthesized (f : Forest) (n : NodeId) (title : Title) :
    f.unparenthesized.children n title = (f.children n title).map f.content := by
  rw [children, (data_unparenthesized f n).2, children, List.filter_map, List.map_map, List.map_map]
  rfl

/-- Inside its parentheses, a node that reads as a tree has the kind of the tree and, title by
title, children that read as its subtrees. -/
theorem Reads.content (h : f.Reads among n t) (hlt : ∀ m, among m → m < f.size) :
    t.kind.agrees (f.kind (f.content n)) = true ∧
      ∀ title, title.isLexical = false →
        List.Forall₂ (f.Reads among) (f.children (f.content n) title) (title.select t.parts) := by
  suffices hbare : ∀ fuel, f.size ≤ n + fuel → ∃ m, f.contentUpTo fuel n = m ∧
      t.kind.agrees (f.kind m) = true ∧ (f.semanticSlots m).map (·.1) = t.parts.map (·.1) ∧
        ∀ p ∈ (f.semanticSlots m).zip t.parts, f.Reads among p.1.2 p.2.2 by
    obtain ⟨m, hm, hkind, htitles, hparts⟩ := hbare f.size (Nat.le_add_left _ _)
    rw [Forest.content, hm]
    refine ⟨hkind, fun title htitle => ?_⟩
    rw [children_eq_select_semantic htitle]
    exact forall₂_select htitles hparts title
  induction h with
  | node hn hkind hbare htitles hparts _ =>
      intro fuel _
      exact ⟨_, contentUpTo_bare hbare fuel, hkind, htitles, hparts⟩
  | @parenthesized n c t _ hkind hchild hnc h ih =>
      intro fuel hfuel
      have hn : n < f.size := Nat.lt_trans hnc (hlt c h.root)
      obtain ⟨fuel, rfl⟩ : ∃ k, fuel = k + 1 := by
        apply Nat.exists_eq_succ_of_ne_zero
        rintro rfl
        exact Nat.not_le.mpr hn hfuel
      have hstep : n + (fuel + 1) ≤ c + fuel := by
        rw [Nat.add_comm fuel 1, ← Nat.add_assoc]
        exact Nat.add_le_add_right hnc fuel
      obtain ⟨m, hm, hrest⟩ := ih fuel (Nat.le_trans hfuel hstep)
      refine ⟨m, ?_, hrest⟩
      rw [contentUpTo, hkind, hchild]
      exact hm

/-! ## Agreement -/

theorem Holds.kind (h : f.Holds n t) : f.kind n = t.kind := by
  cases h with
  | node hkind => exact hkind

theorem Holds.children (h : f.Holds n t) (title : Title) (htitle : title.isLexical = false) :
    List.Forall₂ f.Holds (f.children n title) (title.select t.parts) := by
  cases h with
  | node _ hlength hparts =>
      rw [List.forall₂_iff_zip]
      exact ⟨hlength title htitle, fun {a b} hp => hparts title htitle (a, b) hp⟩

/-- A node that holds a tree agrees with one that reads as it once the parentheses are gone. -/
theorem agree_of_reads (h : f.Holds n t) (h' : g.Reads among m t)
    (hlt : ∀ m, among m → m < g.size) :
    f.agree n g.unparenthesized (g.content m) = true := by
  suffices hall : ∀ fuel, agreeUpTo f g.unparenthesized fuel n (g.content m) = true from hall _
  intro fuel
  induction fuel generalizing n m t with
  | zero =>
      rw [agreeUpTo, h.kind, (data_unparenthesized g _).1]
      exact (h'.content hlt).1
  | succ fuel ih =>
      obtain ⟨hkind, hparts⟩ := h'.content hlt
      rw [agreeUpTo, h.kind, (data_unparenthesized g _).1, hkind, Bool.true_and,
        List.all_eq_true]
      intro title htitle
      have hsemantic : title.isLexical = false := by
        have hmem := List.mem_filter.mp (List.mem_eraseDups.mp htitle)
        simpa using hmem.2
      -- the children on both sides are paired through the subtrees
      have hpairs : List.Forall₂ (fun x y => agreeUpTo f g.unparenthesized fuel x y = true)
          (f.children n title) ((g.children (g.content m) title).map g.content) := by
        rw [List.forall₂_map_right_iff]
        have hleft := h.children title hsemantic
        have hright := hparts title hsemantic
        generalize f.children n title = xs at hleft ⊢
        generalize g.children (g.content m) title = ys at hright ⊢
        generalize title.select t.parts = ts at hleft hright
        induction hleft generalizing ys with
        | nil =>
            cases hright
            exact .nil
        | cons hx _ ihx =>
            cases hright with
            | cons hy hys => exact .cons (ih hx hy) (ihx _ hys)
      rw [children_unparenthesized]
      obtain ⟨hlength, hzip⟩ := List.forall₂_iff_zip.mp hpairs
      dsimp only
      rw [hlength, BEq.rfl, Bool.true_and, List.all_eq_true]
      rintro ⟨x, y⟩ hxy
      exact hzip hxy

end Forest

/-! ## Depths of trees -/

/-- Whether a tree has at most a number of levels, parts that do not count left out. -/
def Tree.Within : Nat → Tree → Prop
  | 0, _ => False
  | k + 1, t => ∀ p ∈ t.parts, p.1.isLexical = false → p.2.Within k

theorem Tree.Within.parts {t : Tree} {k : Nat} (h : t.Within k) :
    ∃ j, k = j + 1 ∧ ∀ p ∈ t.parts, p.1.isLexical = false → p.2.Within j := by
  cases k with
  | zero => cases h
  | succ k => exact ⟨k, rfl, h⟩

namespace Forest

variable {f : Forest} {n : NodeId} {t : Tree}

/-- A node is a child of another one that structural agreement looks at. -/
def IsChild (f : Forest) (c n : NodeId) : Prop :=
  ∃ title, title.isLexical = false ∧ c ∈ f.children n title

theorem Holds.subtree (h : f.Holds n t) {p : Title × Tree} (hp : p ∈ t.parts)
    (htitle : p.1.isLexical = false) : ∃ c, f.IsChild c n ∧ f.Holds c p.2 := by
  have hselect : p.2 ∈ p.1.select t.parts :=
    List.mem_map.mpr ⟨p, List.mem_filter.mpr ⟨hp, BEq.rfl⟩, rfl⟩
  obtain ⟨i, hi, hget⟩ := List.mem_iff_getElem.mp hselect
  have hchildren := h.children p.1 htitle
  have hi' : i < (f.children n p.1).length := hchildren.length_eq ▸ hi
  refine ⟨(f.children n p.1)[i], ⟨p.1, htitle, List.getElem_mem hi'⟩, ?_⟩
  rw [← hget]
  exact hchildren.get hi' hi

/-- There is no way back from below a tree to its root. -/
theorem Holds.acc (h : f.Holds n t) : Acc f.IsChild n := by
  induction h with
  | @node n t _ hlength _ ih =>
      refine .intro n fun c hc => ?_
      obtain ⟨title, htitle, hmem⟩ := hc
      obtain ⟨i, hi, rfl⟩ := List.mem_iff_getElem.mp hmem
      have hi' : i < (title.select t.parts).length := hlength title htitle ▸ hi
      have hzip : i < ((f.children n title).zip (title.select t.parts)).length := by
        rw [List.length_zip]
        exact Nat.lt_min.mpr ⟨hi, hi'⟩
      have hpair := ih title htitle _ (List.getElem_mem hzip)
      rwa [List.getElem_zip] at hpair

theorem Holds.no_return (h : f.Holds n t) : ¬ Relation.TransGen f.IsChild n n := by
  have hacc : Acc (Relation.TransGen f.IsChild) n := h.acc.transGen
  clear h
  induction hacc with
  | intro n _ ih => exact fun hloop => ih n hloop hloop

theorem IsChild.lt {c : NodeId} (h : f.IsChild c n) : n < f.size := by
  obtain ⟨title, -, hmem⟩ := h
  refine Nat.lt_of_not_le fun hle => ?_
  rw [children, slots_of_size_le hle] at hmem
  cases hmem

/-- A tree has no more levels than there are nodes that do not stand above it. -/
theorem Holds.within_below (h : f.Holds n t) (above : List NodeId) (hnodup : above.Nodup)
    (habove : ∀ a ∈ above, a < f.size ∧ Relation.TransGen f.IsChild n a) :
    t.Within (f.size + 1 - above.length) := by
  induction h.acc generalizing t above with
  | intro n _ ih =>
      have hlength : above.length ≤ f.size := by
        have hsub : above ⊆ List.range f.size := fun a ha => List.mem_range.mpr (habove a ha).1
        simpa using (List.subperm_of_subset hnodup hsub).length_le
      rw [Nat.succ_sub hlength]
      intro p hp htitle
      obtain ⟨c, hc, hholds⟩ := h.subtree hp htitle
      have hnew : n ∉ above := fun hmem => h.no_return (habove n hmem).2
      have hrest := ih c hc hholds (n :: above) (List.nodup_cons.mpr ⟨hnew, hnodup⟩) fun a ha => ?_
      · rwa [List.length_cons, Nat.add_sub_add_right] at hrest
      · rcases List.mem_cons.mp ha with rfl | ha
        · exact ⟨hc.lt, .single hc⟩
        · exact ⟨(habove a ha).1, .head hc (habove a ha).2⟩

/-- A tree has no more levels than the forest has nodes, but for one below nodes that do not
exist. -/
theorem Holds.within (h : f.Holds n t) : t.Within (f.size + 1) :=
  h.within_below [] List.nodup_nil fun _ ha => absurd ha List.not_mem_nil

end Forest

end DualSyntax
