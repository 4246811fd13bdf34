import DualSyntax.Proofs.Forest.Mirror
import DualSyntax.Proofs.Forest.Walks
import Mathlib

/-!
# Agreement of trees

Agreement compares the kinds of nodes without their spellings, title by title down the trees, and is
an equivalence up to literals that are no numbers.
-/

/-!
## What agreement of kinds compares

Kinds agree if they are equal once the spellings are taken off: the texts of tokens, the source texts
of literals, and the style and the margins of comments.  Equality of kinds is equality of their data
but for real literals, which are compared as numbers: it is symmetric and transitive, and only a
literal that is not a number differs from itself.
-/

namespace DualSyntax

/-! ### Equality of literals -/

instance floatPartialEquivBEq : PartialEquivBEq Float where
  symm h := by
    obtain ⟨hx, hy, heq⟩ := Float.beq_iff_ne_nan_and_eq.mp h
    refine Float.beq_iff_ne_nan_and_eq.mpr ⟨hy, hx, ?_⟩
    rcases heq with rfl | ⟨rfl, rfl⟩ | ⟨rfl, rfl⟩
    · exact .inl rfl
    · exact .inr (.inr ⟨rfl, rfl⟩)
    · exact .inr (.inl ⟨rfl, rfl⟩)
  trans h h' := by grind [Float.beq_iff_ne_nan_and_eq]

namespace LiteralValue

/-- Whether a literal is a real that is not a number. -/
def isNaN : LiteralValue → Bool
  | real x _ => x.isNaN
  | _ => false

theorem real_beq_iff {x y : Float} {suffix suffix' : NumberSuffix} :
    (real x suffix == real y suffix') = true ↔ (x == y) = true ∧ suffix = suffix' := by
  change (x == y && suffix == suffix') = true ↔ _
  rw [Bool.and_eq_true, @beq_iff_eq NumberSuffix]

/-- Equal literals are the same, or they are reals with the same suffix that are equal as numbers. -/
theorem eq_or_real_of_beq {v v' : LiteralValue} (h : (v == v') = true) :
    v = v' ∨ ∃ x y suffix, v = real x suffix ∧ v' = real y suffix ∧ (x == y) = true := by
  cases v with
  | real x suffix =>
      cases v' with
      | real y suffix' =>
          obtain ⟨hxy, rfl⟩ := real_beq_iff.mp h
          exact .inr ⟨x, y, suffix, rfl, rfl, hxy⟩
      | _ => cases h
  | _ =>
      left
      change instBEqLiteralValue.beq _ _ = true at h
      cases v' <;> simp_all [instBEqLiteralValue.beq]

instance : PartialEquivBEq LiteralValue where
  symm h := by
    rcases eq_or_real_of_beq h with rfl | ⟨x, y, suffix, rfl, rfl, hxy⟩
    · exact h
    · exact real_beq_iff.mpr ⟨BEq.symm hxy, rfl⟩
  trans h h' := by
    rcases eq_or_real_of_beq h with rfl | ⟨x, y, suffix, rfl, rfl, hxy⟩
    · exact h'
    · rcases eq_or_real_of_beq h' with rfl | ⟨y', z, suffix', heq, rfl, hyz⟩
      · exact h
      · cases heq
        exact real_beq_iff.mpr ⟨BEq.trans hxy hyz, rfl⟩

/-- Only a literal that is not a number differs from itself. -/
theorem beq_self_iff {v : LiteralValue} : (v == v) = true ↔ v.isNaN = false := by
  cases v with
  | real x suffix => simp [real_beq_iff, isNaN]
  | _ =>
      change instBEqLiteralValue.beq _ _ = true ↔ _
      simp [instBEqLiteralValue.beq, isNaN]

end LiteralValue

theorem Literal.beq_iff {l l' : Literal} :
    (l == l') = true ↔ (l.value == l'.value) = true ∧ l.spelling = l'.spelling := by
  change (l.value == l'.value && l.spelling == l'.spelling) = true ↔ _
  rw [Bool.and_eq_true, @beq_iff_eq (Option (Language × String))]

instance : PartialEquivBEq Literal where
  symm h := by
    obtain ⟨hvalue, hspelling⟩ := Literal.beq_iff.mp h
    exact Literal.beq_iff.mpr ⟨BEq.symm hvalue, hspelling.symm⟩
  trans h h' := by
    obtain ⟨hvalue, hspelling⟩ := Literal.beq_iff.mp h
    obtain ⟨hvalue', hspelling'⟩ := Literal.beq_iff.mp h'
    exact Literal.beq_iff.mpr ⟨BEq.trans hvalue hvalue', hspelling.trans hspelling'⟩

/-! ### Equality of kinds -/

namespace NodeKind

/-- Whether a kind is a literal that is not a number. -/
def isNaN : NodeKind → Bool
  | primitiveExpression l => l.value.isNaN
  | _ => false

theorem primitiveExpression_beq_iff {l l' : Literal} :
    (primitiveExpression l == primitiveExpression l') = true ↔ (l == l') = true := Iff.rfl

/-- Equal kinds are the same, or they are equal literals. -/
theorem eq_or_literal_of_beq {k k' : NodeKind} (h : (k == k') = true) :
    k = k' ∨ ∃ l l', k = primitiveExpression l ∧ k' = primitiveExpression l' ∧
      (l == l') = true := by
  change instBEqNodeKind.beq k k' = true at h
  unfold instBEqNodeKind.beq at h
  split at h
  · split at h
    case primitiveExpression l l' _ _ => exact .inr ⟨l, l', rfl, rfl, h⟩
    -- all others carry nothing, or data whose equality is that of the logic
    all_goals
      left
      first
      | rfl
      | (rw [beq_iff_eq] at h; rw [h])
      | (simp only [Bool.and_eq_true, beq_iff_eq] at h; rw [h.1, h.2])
  · cases h

instance : PartialEquivBEq NodeKind where
  symm h := by
    rcases eq_or_literal_of_beq h with rfl | ⟨l, l', rfl, rfl, hl⟩
    · exact h
    · exact primitiveExpression_beq_iff.mpr (BEq.symm hl)
  trans h h' := by
    rcases eq_or_literal_of_beq h with rfl | ⟨l, l', rfl, rfl, hl⟩
    · exact h'
    · rcases eq_or_literal_of_beq h' with rfl | ⟨l₁, l₂, heq, rfl, hl'⟩
      · exact h
      · cases heq
        exact primitiveExpression_beq_iff.mpr (BEq.trans hl hl')

/-! ### Kinds without their spellings -/

/-- A kind without its spelling: tokens lose their text, literals the text they were read from, and
comments their style and the blanks around them. -/
def essence : NodeKind → NodeKind
  | token k _ => token k ""
  | primitiveExpression l => primitiveExpression ⟨l.value, none⟩
  | comment _ s => comment .line (String.ofList (Text.trim s.toList))
  | k => k

def isSpelled : NodeKind → Bool
  | token _ _ | primitiveExpression _ | comment _ _ => true
  | _ => false

theorem beq_eq_false_of_isSpelled {k k' : NodeKind} (h : k.isSpelled ≠ k'.isSpelled) :
    (k == k') = false := by
  rw [← Bool.not_eq_true]
  intro heq
  rcases eq_or_literal_of_beq heq with rfl | ⟨l, l', rfl, rfl, -⟩
  · exact h rfl
  · exact h rfl

theorem isSpelled_essence (k : NodeKind) : k.essence.isSpelled = k.isSpelled := by
  cases k <;> rfl

theorem essence_of_not_isSpelled {k : NodeKind} (h : k.isSpelled = false) : k.essence = k := by
  cases k <;> first | rfl | cases h

/-- A kind without a spelling equals others whether or not their spellings are taken off. -/
theorem beq_essence {k : NodeKind} (h : k.isSpelled = false) (k' : NodeKind) :
    (k == k'.essence) = (k == k') := by
  cases h' : k'.isSpelled with
  | true =>
      have hne : k.isSpelled ≠ k'.isSpelled := by rw [h, h']; nofun
      rw [beq_eq_false_of_isSpelled hne, beq_eq_false_of_isSpelled (by rwa [isSpelled_essence])]
  | false => rw [essence_of_not_isSpelled h']

theorem comment_beq_iff {c c' : CommentKind} {s s' : String} :
    (comment c s == comment c' s') = true ↔ c = c' ∧ s = s' := by
  change (c == c' && s == s') = true ↔ _
  rw [Bool.and_eq_true, beq_iff_eq, beq_iff_eq]

theorem token_beq_iff {t t' : TokenKind} {s s' : String} :
    (token t s == token t' s') = true ↔ t = t' ∧ s = s' := by
  change (t == t' && s == s') = true ↔ _
  rw [Bool.and_eq_true, beq_iff_eq, beq_iff_eq]

/-- Kinds agree if they are equal without their spellings. -/
theorem agrees_iff_essence_beq (k k' : NodeKind) :
    k.agrees k' = true ↔ (k.essence == k'.essence) = true := by
  cases k with
  | token t s =>
      cases k' with
      | token t' s' =>
          change (t == t') = true ↔ _
          rw [essence, essence, token_beq_iff, beq_iff_eq, and_iff_left rfl]
      | _ => exact Iff.rfl
  | primitiveExpression l =>
      cases k' with
      | primitiveExpression l' =>
          change (l.value == l'.value) = true ↔ _
          rw [essence, essence, primitiveExpression_beq_iff, Literal.beq_iff, and_iff_left rfl]
      | _ => exact Iff.rfl
  | comment c s =>
      cases k' with
      | comment c' s' =>
          change (Text.trim s.toList == Text.trim s'.toList) = true ↔ _
          rw [essence, essence, comment_beq_iff, and_iff_right rfl, String.ofList_inj, beq_iff_eq]
      | _ => exact Iff.rfl
  | _ => exact Eq.to_iff (congrArg (· = true) (beq_essence rfl k').symm)

theorem agrees_symm {k k' : NodeKind} (h : k.agrees k' = true) : k'.agrees k = true := by
  rw [agrees_iff_essence_beq] at h ⊢
  exact BEq.symm h

theorem agrees_trans {k k' k'' : NodeKind} (h : k.agrees k' = true) (h' : k'.agrees k'' = true) :
    k.agrees k'' = true := by
  rw [agrees_iff_essence_beq] at h h' ⊢
  exact BEq.trans h h'

/-- Only a literal that is not a number does not agree with itself. -/
theorem agrees_self_iff {k : NodeKind} : k.agrees k = true ↔ k.isNaN = false := by
  cases h : k.isLiteral with
  | true =>
      cases k with
      | primitiveExpression l => exact LiteralValue.beq_self_iff
      | _ => cases h
  | false =>
      refine iff_of_true (Definite.of_not_isLiteral h) ?_
      cases k <;> first | rfl | cases h

end NodeKind

end DualSyntax

/-!
## Agreement is an equivalence

The links of the first forest have no cycle, so the bound on the depth to which two trees are compared
cuts nothing off: nodes agree exactly if their kinds do and, title by title, their children agree in
order.  Agreement is thus symmetric and transitive, and reflexive on trees without literals that are
no numbers.  It sees nothing of the concrete syntax: `Restyled` says which trees it cannot tell apart.
-/

namespace DualSyntax.Forest

variable {f g h f' g' : Forest} {a b c a' b' : NodeId} {t : Title}

/-! ### The bound on the depth -/

theorem children_eq_nil_iff : f.children a t = [] ↔ ∀ s ∈ f.slots a, s.1 ≠ t := by
  simp [children]

theorem mem_comparedTitles {xs ys : List (Title × NodeId)} :
    t ∈ comparedTitles xs ys ↔ t.isLexical = false ∧ ∃ s ∈ xs ++ ys, s.1 = t := by
  simp only [comparedTitles, List.mem_eraseDups, List.mem_filter, List.mem_map, Bool.not_eq_true',
    and_comm]

theorem agreeUpTo_succ_iff (fuel : Nat) :
    agreeUpTo f g (fuel + 1) a b = true ↔ (f.kind a).agrees (g.kind b) = true ∧
      ∀ t, t.isLexical = false → List.Forall₂ (fun x y => agreeUpTo f g fuel x y = true)
        (f.children a t) (g.children b t) := by
  have hall (t : Title) : List.Forall₂ (fun x y => agreeUpTo f g fuel x y = true)
      (f.children a t) (g.children b t) ↔
        ((f.children a t).length == (g.children b t).length &&
          ((f.children a t).zip (g.children b t)).all fun p => agreeUpTo f g fuel p.1 p.2) = true := by
    rw [List.forall₂_iff_zip, Bool.and_eq_true, beq_iff_eq, List.all_eq_true]
    exact and_congr_right fun _ => ⟨fun h p hp => h hp, fun h x y hp => h (x, y) hp⟩
  rw [agreeUpTo, Bool.and_eq_true, List.all_eq_true]
  refine and_congr_right fun _ => ⟨fun hcompared t ht => ?_, fun hchildren t ht => ?_⟩
  · by_cases hmem : t ∈ comparedTitles (f.slots a) (g.slots b)
    · exact (hall t).mpr (hcompared t hmem)
    · -- a title that is not compared has no children on either side
      have hnone : ∀ s ∈ f.slots a ++ g.slots b, s.1 ≠ t := fun s hs heq =>
        hmem (mem_comparedTitles.mpr ⟨ht, s, hs, heq⟩)
      rw [children_eq_nil_iff.mpr fun s hs => hnone s (List.mem_append_left _ hs),
        children_eq_nil_iff.mpr fun s hs => hnone s (List.mem_append_right _ hs)]
      exact .nil
  · exact (hall t).mp (hchildren t (mem_comparedTitles.mp ht).1)

theorem forall₂_congr {α β α' β' : Type} {R : α → β → Prop} {R' : α' → β' → Prop}
    {S : α → α' → Prop} {T : β → β' → Prop} {xs : List α} {xs' : List α'} {ys : List β}
    {ys' : List β'} (hxs : List.Forall₂ S xs xs') (hys : List.Forall₂ T ys ys')
    (h : ∀ x x' y y', S x x' → T y y' → (R x y ↔ R' x' y')) :
    List.Forall₂ R xs ys ↔ List.Forall₂ R' xs' ys' := by
  induction hxs generalizing ys ys' with
  | nil => cases hys <;> simp
  | cons hx _ ih =>
      cases hys with
      | nil => simp
      | cons hy hys => rw [List.forall₂_cons, List.forall₂_cons, h _ _ _ _ hx hy, ih hys]

theorem forall₂_congr_left {α β : Type} {R R' : α → β → Prop} {xs : List α} {ys : List β}
    (h : ∀ x ∈ xs, ∀ y, R x y ↔ R' x y) : List.Forall₂ R xs ys ↔ List.Forall₂ R' xs ys :=
  forall₂_congr (S := fun x x' => ∀ y, R x y ↔ R' x' y) (T := Eq) (List.forall₂_same.mpr h)
    (List.forall₂_same.mpr fun _ _ => rfl) fun _ _ _ _ hx hy => hy ▸ hx _

theorem forall₂_trans {α β γ : Type} {R : α → β → Prop} {S : β → γ → Prop} {T : α → γ → Prop}
    {xs : List α} {ys : List β} {zs : List γ} (h : ∀ x ∈ xs, ∀ y z, R x y → S y z → T x z)
    (hxs : List.Forall₂ R xs ys) (hys : List.Forall₂ S ys zs) : List.Forall₂ T xs zs := by
  induction hxs generalizing zs with
  | nil =>
      cases hys
      exact .nil
  | cons hx _ ih =>
      cases hys with
      | cons hy hys =>
          rw [List.forall_mem_cons] at h
          exact .cons (h.1 _ _ hx hy) (ih h.2 hys)

namespace WellLinked

/-- A bound above the depth of the first tree cuts nothing off. -/
theorem agreeUpTo_stable (hf : f.WellLinked) {i j : Nat} (hi : (below f a).card < i)
    (hj : (below f a).card < j) : agreeUpTo f g i a b = true ↔ agreeUpTo f g j a b = true := by
  induction i generalizing j a b with
  | zero => omega
  | succ i ih =>
      obtain ⟨j, rfl⟩ : ∃ k, j = k + 1 := ⟨j - 1, by omega⟩
      rw [agreeUpTo_succ_iff, agreeUpTo_succ_iff]
      refine and_congr_right fun _ => forall_congr' fun t => imp_congr_right fun _ => ?_
      refine forall₂_congr_left fun x hx y => ?_
      have hless := hf.card_below_lt (mem_childIds_of_mem_children hx)
      exact ih (by omega) (by omega)

theorem card_below_lt_size (hf : f.WellLinked) (ha : a < f.size) : (below f a).card < f.size := by
  have hnew : a ∉ below f a := by simpa [below] using fun _ => hf.acyclic a
  have hsubset : insert a (below f a) ⊆ Finset.range f.size :=
    Finset.insert_subset (Finset.mem_range.mpr ha) (by simp [below])
  have hcard := Finset.card_le_card hsubset
  rwa [Finset.card_insert_of_notMem hnew, Finset.card_range] at hcard

/-- Nothing is below a node without children. -/
theorem below_eq_empty (hf : f.WellLinked) (ha : f.childIds a = []) : below f a = ∅ := by
  refine Finset.eq_empty_of_forall_notMem fun m hm => ?_
  have habove : Relation.TransGen f.Below m a := by
    simp only [below, Finset.mem_filter] at hm
    exact hm.2
  obtain ⟨c, -, hc⟩ := Relation.TransGen.tail'_iff.mp habove
  have hchild := (hf.parent_iff a c).mp hc
  rw [ha] at hchild
  cases hchild

/-- Nodes agree if their kinds do and, title by title, their children agree in order. -/
theorem agree_iff (hf : f.WellLinked) :
    f.agree a g b = true ↔ (f.kind a).agrees (g.kind b) = true ∧
      ∀ t, t.isLexical = false → List.Forall₂ (fun x y => f.agree x g y = true)
        (f.children a t) (g.children b t) := by
  have hbelow := f.card_below_le a
  cases hfuel : f.size + g.size with
  | zero =>
      -- neither forest has a node
      have hleft : f.slots a = [] := slots_of_size_le (by omega)
      have hright : g.slots b = [] := slots_of_size_le (by omega)
      rw [agree, hfuel, agreeUpTo]
      refine (and_iff_left fun t _ => ?_).symm
      rw [children, children, hleft, hright]
      exact .nil
  | succ fuel =>
      have hbound : (below f a).card < fuel + 1 := by
        rcases Nat.lt_or_ge a f.size with hlt | hge
        · have := hf.card_below_lt_size hlt
          omega
        · simp [hf.below_eq_empty (by rw [childIds, slots_of_size_le hge, List.map_nil])]
      rw [agree, hfuel, agreeUpTo_succ_iff]
      refine and_congr_right fun _ => forall_congr' fun t => imp_congr_right fun _ => ?_
      refine forall₂_congr_left fun x hx y => ?_
      have hless := hf.card_below_lt (mem_childIds_of_mem_children hx)
      exact hf.agreeUpTo_stable (by omega) (by omega)

/-! ### An equivalence -/

/-- A tree without literals that are no numbers agrees with itself. -/
theorem agree_self (hf : f.WellLinked)
    (ha : ∀ m ∈ f.descendants a, (f.kind m).isNaN = false) : f.agree a f a = true := by
  induction a using hf.childInduction with
  | step a ih =>
      rw [hf.descendants_eq, List.forall_mem_cons] at ha
      rw [hf.agree_iff, NodeKind.agrees_self_iff]
      refine ⟨ha.1, fun t _ => List.forall₂_same.mpr fun x hx => ?_⟩
      have hchild := mem_childIds_of_mem_children hx
      exact ih x hchild fun m hm => ha.2 m (List.mem_flatMap.mpr ⟨x, hchild, hm⟩)

theorem agree_symm (hf : f.WellLinked) (hg : g.WellLinked) (hab : f.agree a g b = true) :
    g.agree b f a = true := by
  induction a using hf.childInduction generalizing b with
  | step a ih =>
      obtain ⟨hkind, hchildren⟩ := hf.agree_iff.mp hab
      refine hg.agree_iff.mpr ⟨NodeKind.agrees_symm hkind, fun t ht => ?_⟩
      refine .flip (((List.forall₂_and_left _ _).mpr ⟨fun x hx => hx, hchildren t ht⟩).imp ?_)
      exact fun x y hxy => ih x (mem_childIds_of_mem_children hxy.1) hxy.2

theorem agree_trans (hf : f.WellLinked) (hg : g.WellLinked) (hab : f.agree a g b = true)
    (hbc : g.agree b h c = true) : f.agree a h c = true := by
  induction a using hf.childInduction generalizing b c with
  | step a ih =>
      obtain ⟨hkind, hchildren⟩ := hf.agree_iff.mp hab
      obtain ⟨hkind', hchildren'⟩ := hg.agree_iff.mp hbc
      refine hf.agree_iff.mpr ⟨NodeKind.agrees_trans hkind hkind', fun t ht => ?_⟩
      refine forall₂_trans (fun x hx y z hxy hyz => ?_) (hchildren t ht) (hchildren' t ht)
      exact ih x (mem_childIds_of_mem_children hx) hxy hyz

end WellLinked

/-! ### Concrete syntax -/

/-- A tree in another concrete syntax: the nodes have the same kinds but for spellings and, title by
title, the same children in the same order.  Places, lexical slots and the order of different titles
may differ. -/
inductive Restyled (f f' : Forest) : NodeId → NodeId → Prop
  | node {n n' : NodeId} (hkind : (f.kind n).essence = (f'.kind n').essence)
      (hlength : ∀ t, t.isLexical = false →
        (f.children n t).length = (f'.children n' t).length)
      (hchildren : ∀ t, t.isLexical = false →
        ∀ p ∈ (f.children n t).zip (f'.children n' t), f.Restyled f' p.1 p.2) :
      f.Restyled f' n n'

namespace Restyled

theorem kind (h : f.Restyled f' a a') : (f.kind a).essence = (f'.kind a').essence := by
  cases h with
  | node hkind => exact hkind

theorem children (h : f.Restyled f' a a') (ht : t.isLexical = false) :
    List.Forall₂ (f.Restyled f') (f.children a t) (f'.children a' t) := by
  cases h with
  | node _ hlength hchildren =>
      exact List.forall₂_iff_zip.mpr ⟨hlength t ht, fun {x y} hp => hchildren t ht (x, y) hp⟩

theorem of_children (hkind : (f.kind a).essence = (f'.kind a').essence)
    (hchildren : ∀ t, t.isLexical = false →
      List.Forall₂ (f.Restyled f') (f.children a t) (f'.children a' t)) : f.Restyled f' a a' :=
  .node hkind (fun t ht => (hchildren t ht).length_eq)
    fun t ht _ hp => List.forall₂_zip (hchildren t ht) hp

/-- A tree whose nodes keep their kinds but for spellings and, title by title, their children. -/
theorem of_same (hf : f.WellLinked)
    (h : ∀ m ∈ f.descendants a, (f.kind m).essence = (f'.kind m).essence ∧
      ∀ t, t.isLexical = false → f.children m t = f'.children m t) : f.Restyled f' a a := by
  induction a using hf.childInduction with
  | step a ih =>
      rw [hf.descendants_eq, List.forall_mem_cons] at h
      refine of_children h.1.1 fun t ht => ?_
      rw [← h.1.2 t ht]
      refine List.forall₂_same.mpr fun x hx => ?_
      have hchild := mem_childIds_of_mem_children hx
      exact ih x hchild fun m hm => h.2 m (List.mem_flatMap.mpr ⟨x, hchild, hm⟩)

/-- Trees in another concrete syntax agree with the same trees. -/
theorem agree_iff (hf : f.WellLinked) (hf' : f'.WellLinked) (ha : f.Restyled f' a a')
    (hb : g.Restyled g' b b') : f.agree a g b = true ↔ f'.agree a' g' b' = true := by
  induction ha generalizing b b' with
  | @node a a' hkind hlength hchildren ih =>
      rw [hf.agree_iff, hf'.agree_iff, NodeKind.agrees_iff_essence_beq,
        NodeKind.agrees_iff_essence_beq, hkind, hb.kind]
      refine and_congr_right fun _ => forall_congr' fun t => imp_congr_right fun ht => ?_
      have hpairs : List.Forall₂ (fun x x' => ∀ {b b'}, g.Restyled g' b b' →
          (f.agree x g b = true ↔ f'.agree x' g' b' = true)) (f.children a t) (f'.children a' t) :=
        List.forall₂_iff_zip.mpr ⟨hlength t ht, fun {x y} hp => ih t ht (x, y) hp⟩
      exact forall₂_congr hpairs (hb.children ht) fun x x' y y' hx hy => hx hy

end Restyled

/-- Agreement is an equivalence that looks past the concrete syntax.  It is reflexive on trees without
literals that are no numbers, symmetric and transitive; nodes agree exactly if their kinds do and,
title by title, their children agree in order; and trees in another concrete syntax agree with the
same trees. -/
theorem agree_equivalence_upToStyle (hf : f.WellLinked) (hg : g.WellLinked) :
    (∀ a, (∀ m ∈ f.descendants a, (f.kind m).isNaN = false) → f.agree a f a = true) ∧
    (∀ a b, f.agree a g b = g.agree b f a) ∧
    (∀ h a b c, f.agree a g b = true → g.agree b h c = true → f.agree a h c = true) ∧
    (∀ a b, f.agree a g b = true ↔ ((f.kind a).essence == (g.kind b).essence) = true ∧
      ∀ t, t.isLexical = false → List.Forall₂ (fun x y => f.agree x g y = true)
        (f.children a t) (g.children b t)) ∧
    ∀ f' g' a a' b b', f'.WellLinked → f.Restyled f' a a' → g.Restyled g' b b' →
      f'.agree a' g' b' = f.agree a g b := by
  refine ⟨fun a => hf.agree_self, fun a b => ?_, fun h a b c => hf.agree_trans hg, fun a b => ?_, ?_⟩
  · exact Bool.eq_iff_iff.mpr ⟨hf.agree_symm hg, hg.agree_symm hf⟩
  · rw [hf.agree_iff, NodeKind.agrees_iff_essence_beq]
  · intro f' g' a a' b b' hf' ha hb
    exact Bool.eq_iff_iff.mpr (ha.agree_iff hf hf' hb).symm

/-- A sum of two numbers with its sign, the first number spelled in one language. -/
def spelledSum : Forest :=
  performAll {} [.allocate (.binaryOperatorExpression .add) ⟨⟨0, 0⟩, ⟨0, 7⟩⟩,
    .allocate (.primitiveExpression ⟨.integer 1 .none, some (.csharp, "0x1")⟩) ⟨⟨0, 0⟩, ⟨0, 3⟩⟩,
    .allocate (.token .plus "+") ⟨⟨0, 4⟩, ⟨0, 5⟩⟩,
    .allocate (.primitiveExpression ⟨.integer 2 .none, none⟩) ⟨⟨0, 6⟩, ⟨0, 7⟩⟩,
    .append 0 .left 1, .append 0 .operatorToken 2, .append 0 .right 3]

/-- The same sum without its sign and its places, the first number spelled in the other language and
standing after the second. -/
def respelledSum : Forest :=
  performAll {} [.allocate (.binaryOperatorExpression .add) {},
    .allocate (.primitiveExpression ⟨.integer 1 .none, some (.visualBasic, "&H1")⟩) {},
    .allocate (.token .plus "+") {},
    .allocate (.primitiveExpression ⟨.integer 2 .none, none⟩) {},
    .append 0 .right 3, .append 0 .left 1]

theorem agree_equivalence_upToStyle_sums :
    spelledSum.WellLinked ∧ respelledSum.WellLinked ∧
    (∀ m ∈ spelledSum.descendants 0, (spelledSum.kind m).isNaN = false) ∧
    spelledSum.Restyled respelledSum 0 0 ∧ spelledSum.agree 0 spelledSum 0 = true ∧
    respelledSum.agree 0 spelledSum 0 = true ∧ spelledSum.agree 0 respelledSum 0 = true := by
  have hf : spelledSum.WellLinked := WellLinked.empty.performAll _
  have hf' : respelledSum.WellLinked := WellLinked.empty.performAll _
  have hnumbers : ∀ m ∈ spelledSum.descendants 0, (spelledSum.kind m).isNaN = false := by decide
  have hstyle : spelledSum.Restyled respelledSum 0 0 := by
    have hnodes : spelledSum.descendants 0 = [0, 1, 2, 3] := by decide
    have hslots : spelledSum.slots 0 = [(.left, 1), (.operatorToken, 2), (.right, 3)] ∧
        respelledSum.slots 0 = [(.right, 3), (.left, 1)] := by decide
    have hleaves : ∀ m ∈ [1, 2, 3], spelledSum.slots m = [] ∧ respelledSum.slots m = [] := by decide
    refine .of_same hf fun m hm => ?_
    rw [hnodes, List.mem_cons] at hm
    rcases hm with rfl | hm
    · refine ⟨rfl, fun t ht => ?_⟩
      rw [Forest.children, Forest.children, hslots.1, hslots.2]
      cases t <;> first | rfl | cases ht
    · refine ⟨?_, fun t _ => ?_⟩
      · simp only [List.mem_cons, List.not_mem_nil, or_false] at hm
        rcases hm with rfl | rfl | rfl <;> rfl
      · rw [Forest.children, Forest.children, (hleaves m hm).1, (hleaves m hm).2]
  obtain ⟨hself, -, -, -, hsame⟩ := agree_equivalence_upToStyle hf hf
  have hagree := (hsame _ _ 0 0 0 0 hf' hstyle (.of_same hf fun _ _ => ⟨rfl, fun _ _ => rfl⟩)).trans
    (hself 0 hnumbers)
  exact ⟨hf, hf', hnumbers, hstyle, hself 0 hnumbers, hagree,
    ((agree_equivalence_upToStyle hf hf').2.1 0 0).trans hagree⟩

end DualSyntax.Forest
