import DualSyntax.CSharp.Shapes
import DualSyntax.Proofs.Forest.Extensions
import DualSyntax.Proofs.Lowering.Chaining
import DualSyntax.Proofs.Lowering.InnerShapes
import DualSyntax.Proofs.Lowering.Total

/-!
# Operator chains

A chain of operands with operators between them becomes a binary tree, grouped from the left or from
the right.  Each round lowers one operand and makes one node over it and the tree so far.  `Grouped`
says what the tree is and in which order its operands and operators stand, and `InTurn` says which
steps led to it.  Both follow from what one round does, by induction on the rounds.
-/

namespace DualSyntax

/-! ## Covering spans -/

namespace Span

def coverAll : List Span → Span
  | [] => emptyAt 0
  | s :: ss => ss.foldl cover s

def fromFirstToLast (ss : List Span) : Span :=
  ⟨(ss.head?.getD (emptyAt 0)).start, (ss.getLast?.getD (emptyAt 0)).stop⟩

/-- A span that neither starts nor stops after another. -/
def Precedes (s t : Span) : Prop := s.start ≤ t.start ∧ s.stop ≤ t.stop

instance : DecidableRel Precedes := fun _ _ => inferInstanceAs (Decidable (_ ∧ _))

theorem coverAll_concat {ss : List Span} (h : ss ≠ []) (s : Span) :
    coverAll (ss ++ [s]) = (coverAll ss).cover s := by
  obtain ⟨t, ts, rfl⟩ := List.exists_cons_of_ne_nil h
  exact List.foldl_concat ..

theorem coverAll_cons {ss : List Span} (h : ss ≠ []) (s : Span) :
    coverAll (s :: ss) = (coverAll ss).cover s := by
  induction ss using List.reverseRecOn with
  | nil => exact absurd rfl h
  | append_singleton ss t ih =>
      by_cases hss : ss = []
      · subst hss
        simp [coverAll, cover, Nat.min_comm, Nat.max_comm]
      · rw [← List.cons_append, coverAll_concat (List.cons_ne_nil _ _), ih hss, coverAll_concat hss]
        simp only [cover, Span.mk.injEq]
        omega

/-- Spans that follow each other are covered from the first to the last. -/
theorem coverAll_eq {ss : List Span} (h : ss.Pairwise Precedes) :
    coverAll ss = fromFirstToLast ss := by
  induction ss using List.reverseRecOn with
  | nil => rfl
  | append_singleton ss t ih =>
      by_cases hss : ss = []
      · subst hss
        rfl
      · obtain ⟨s, ss', rfl⟩ := List.exists_cons_of_ne_nil hss
        rw [List.pairwise_append] at h
        obtain ⟨hss', -, hlast⟩ := h
        have hfirst := (hlast s List.mem_cons_self t (List.mem_singleton_self t)).1
        have hstop := (hlast _ (List.getLast_mem hss) t (List.mem_singleton_self t)).2
        rw [coverAll_concat hss, ih hss']
        have hhead : (s :: ss' ++ [t]).head? = some s := rfl
        simp only [fromFirstToLast, cover, hhead, List.head?_cons, Option.getD_some,
          List.getLast?_concat, List.getLast?_eq_some_getLast hss, Span.mk.injEq]
        omega

end Span

/-! ## Forests with a new root -/

namespace Forest

/-- From one forest to the next all nodes keep their kinds, places and children. -/
structure Retains (f f' : Forest) : Prop where
  size_le : f.size ≤ f'.size
  kind : ∀ n, n < f.size → f'.kind n = f.kind n
  range : ∀ n, n < f.size → f'.range n = f.range n
  children : ∀ n t, n < f.size → f'.children n t = f.children n t

theorem lt_size_of_kind {f : Forest} {n : NodeId} (h : f.kind n ≠ .blankLine) : n < f.size := by
  by_contra hle
  exact h (by rw [Forest.kind, data_of_size_le (Nat.not_lt.mp hle)])

theorem Retains.refl (f : Forest) : f.Retains f :=
  ⟨Nat.le_refl _, fun _ _ => rfl, fun _ _ => rfl, fun _ _ _ => rfl⟩

theorem Retains.trans {f f' f'' : Forest} (h : f.Retains f') (h' : f'.Retains f'') :
    f.Retains f'' where
  size_le := Nat.le_trans h.size_le h'.size_le
  kind n hn := (h'.kind n (Nat.lt_of_lt_of_le hn h.size_le)).trans (h.kind n hn)
  range n hn := (h'.range n (Nat.lt_of_lt_of_le hn h.size_le)).trans (h.range n hn)
  children n t hn :=
    (h'.children n t (Nat.lt_of_lt_of_le hn h.size_le)).trans (h.children n t hn)

theorem Retains.allocate (f : Forest) (kind : NodeKind) (range : TextRange) :
    f.Retains (f.allocate kind range).2 where
  size_le := by simp
  kind n hn := kind_allocate_of_lt hn kind range
  range n hn := by rw [Forest.range, data_allocate_of_ne (Nat.ne_of_lt hn), Forest.range]
  children n t _ := by rw [Forest.children, slots_allocate, Forest.children]

/-- A forest with a root that another forest does not have, and with all that the other has; its roots
are still roots. -/
structure NewRoot (f f' : Forest) (n : NodeId) : Prop where
  linked : f'.WellLinked
  retains : f.Retains f'
  fresh : Lower.Fresh f f' n

/-- A forest in which a root has been put below another one that had no children under a title. -/
structure PutUnder (f f' : Forest) (owner c : NodeId) (t : Title) : Prop where
  linked : f'.WellLinked
  size : f'.size = f.size
  kind : ∀ n, f'.kind n = f.kind n
  range : ∀ n, f'.range n = f.range n
  parent : ∀ n, f'.parent n = if n = c then some owner else f.parent n
  children : ∀ n u, f'.children n u = if n = owner ∧ u = t then [c] else f.children n u

/-- What is put below a new node leaves the old ones as they were. -/
theorem Retains.then_placed {f f' f'' : Forest} {owner c : NodeId} {t : Title} (h : f.Retains f')
    (hplaced : PutUnder f' f'' owner c t) (hnew : f.size ≤ owner) : f.Retains f'' where
  size_le := hplaced.size ▸ h.size_le
  kind n hn := (hplaced.kind n).trans (h.kind n hn)
  range n hn := (hplaced.range n).trans (h.range n hn)
  children n u hn := by
    rw [hplaced.children, if_neg (by rintro ⟨rfl, -⟩; omega), h.children n u hn]

end Forest

open Forest

namespace Lower

theorem set_placed {f : Forest} (hf : f.WellLinked) {owner c : NodeId} {t : Title}
    (ho : f.IsRoot owner) (hc : f.IsRoot c) (hne : c ≠ owner) (hnone : f.children owner t = [])
    (source : Source) (ds : Array Diagnostic) :
    ∃ f', set owner t c source ⟨f, ds⟩ = .ok ((), ⟨f', ds⟩) ∧ PutUnder f f' owner c t := by
  have hchild : f.child? owner t ≠ some c := by simp [child?_eq_head?, hnone]
  obtain ⟨f', hset, hedited⟩ := hf.edited_set (canAttach_of_isRoot ho hc.lt hne) t hchild
  rw [hnone] at hset hedited
  refine ⟨f', by simp [set, edit, hset], hf.setChild? hset, hedited.size, hedited.kind, hedited.range,
    fun n => by simpa using hedited.parent n, fun n u => ?_⟩
  split
  · next h =>
    obtain ⟨rfl, rfl⟩ := h
    exact hedited.list
  · next h =>
    rw [hedited.others n u (by tauto)]
    exact filter_of_not_mem (hc.not_mem_children hf n u)

end Lower

/-! ## A binary node -/

def RawTree.operatorToken? {δ : Type} : RawTree δ → Option Token
  | .leaf t => some t
  | raw => raw.childTokens.head?

namespace Lowering

open Lower

variable {δ : Type} {g : Grammar δ} {recur : Recur δ} {operator? : TokenKind → Option BinaryOperator}
  {source : Source} {f f' : Forest} {n a b left right : NodeId} {tk : Token}

theorem operatorToken_eq {sep : RawTree δ} (h : sep.operatorToken? = some tk) :
    operatorToken g sep = pure tk := by
  cases sep with
  | leaf t =>
      cases h
      rfl
  | node form i j cs =>
      rw [operatorToken]
      · rw [RawTree.operatorToken?] at h
        · rw [h]
        · simp
      · simp

/-- A node under construction: all other nodes are as they were, and some roots hang below it. -/
structure Building (f f' : Forest) (n : NodeId) (kind : NodeKind) (range : TextRange)
    (slots : List (Title × NodeId)) : Prop where
  linked : f'.WellLinked
  retains : f.Retains f'
  root : f'.IsRoot n
  new : f.size ≤ n
  kind : f'.kind n = kind
  range : f'.range n = range
  children : ∀ u, f'.children n u = under u slots
  roots : ∀ m, m ∉ slots.map (·.2) → f.IsRoot m → f'.IsRoot m

namespace Building

variable {kind : NodeKind} {range : TextRange} {slots : List (Title × NodeId)} {c : NodeId} {t : Title}

theorem start (hf : f.WellLinked) (kind : NodeKind) (range : TextRange) :
    Building f (f.allocate kind range).2 f.size kind range [] where
  linked := hf.allocate _ _
  retains := .allocate f kind range
  root := isRoot_allocate ..
  new := Nat.le_refl _
  kind := kind_allocate ..
  range := by rw [Forest.range, data_allocate_self]
  children u := by
    rw [Forest.children, slots_allocate, slots_of_size_le (Nat.le_refl _)]
    rfl
  roots m _ hm := hm.of_grows (grows_allocate ..)

theorem allocate (h : Building f f' n kind range slots) (kind' : NodeKind) (range' : TextRange) :
    Building f (f'.allocate kind' range').2 n kind range slots where
  linked := h.linked.allocate _ _
  retains := h.retains.trans (.allocate ..)
  root := h.root.of_grows (grows_allocate ..)
  new := h.new
  kind := (kind_allocate_of_lt h.root.lt ..).trans h.kind
  range := ((Retains.allocate f' kind' range').range n h.root.lt).trans h.range
  children u := ((Retains.allocate f' kind' range').children n u h.root.lt).trans (h.children u)
  roots m hm hroot := (h.roots m hm hroot).of_grows (grows_allocate ..)

/-- A root is put below the node, under a title that is still free. -/
theorem set (h : Building f f' n kind range slots) (hc : f'.IsRoot c) (hne : c ≠ n)
    (ht : t ∉ slots.map (·.1)) (source : Source) (ds : Array Diagnostic) :
    ∃ f'', Lower.set n t c source ⟨f', ds⟩ = .ok ((), ⟨f'', ds⟩) ∧
      Building f f'' n kind range (slots ++ [(t, c)]) ∧ PutUnder f' f'' n c t := by
  have hfree : under t slots = [] := by
    simp only [under, List.map_eq_nil_iff, List.filter_eq_nil_iff, beq_iff_eq]
    exact fun s hs heq => ht (heq ▸ List.mem_map_of_mem hs)
  obtain ⟨f'', hset, hplaced⟩ := set_placed h.linked h.root hc hne (by rw [h.children, hfree]) source ds
  refine ⟨f'', hset, ⟨hplaced.linked, ?_, ?_, h.new, (hplaced.kind n).trans h.kind,
    (hplaced.range n).trans h.range, fun u => ?_, fun m hm hroot => ?_⟩, hplaced⟩
  · exact h.retains.then_placed hplaced h.new
  · exact ⟨by rw [hplaced.size]; exact h.root.lt, by rw [hplaced.parent, if_neg hne.symm, h.root.parent]⟩
  · rw [hplaced.children, under_append]
    by_cases hu : u = t
    · subst hu
      rw [if_pos ⟨rfl, rfl⟩, hfree]
      simp [under]
    · simp [hu, h.children, under, Ne.symm hu]
  · rw [List.map_append, List.mem_append, not_or] at hm
    have hroot' := h.roots m hm.1 hroot
    have hmc : m ≠ c := by simpa using hm.2
    exact ⟨by rw [hplaced.size]; exact hroot'.lt, by rw [hplaced.parent, if_neg hmc, hroot'.parent]⟩

end Building

/-- A node for the operator of a separator between two nodes. -/
structure Operates (operator? : TokenKind → Option BinaryOperator) (f : Forest) (n left : NodeId)
    (sep : RawTree δ) (right : NodeId) : Prop where
  exists_operator : ∃ tk op t, sep.operatorToken? = some tk ∧ operator? tk.kind = some op ∧
    f.kind n = .binaryOperatorExpression op ∧ f.kind t = .token tk.kind tk.text ∧
    ∀ u, f.children n u = under u [(.left, left), (.operatorToken, t), (.right, right)]

theorem Operates.lt {sep : RawTree δ} (h : Operates operator? f n left sep right) : n < f.size := by
  obtain ⟨tk, op, t, -, -, hkind, -, -⟩ := h.exists_operator
  exact lt_size_of_kind (by rw [hkind]; simp)

/-- A new root over two others; all else is as it was. -/
structure MadeOver (f f' : Forest) (a b n : NodeId) : Prop where
  linked : f'.WellLinked
  retains : f.Retains f'
  root : f'.IsRoot n
  new : f.size ≤ n
  roots : ∀ m, m ≠ a → m ≠ b → f.IsRoot m → f'.IsRoot m

theorem MadeOver.swap (h : MadeOver f f' a b n) : MadeOver f f' b a n :=
  { h with roots := fun m hb ha => h.roots m ha hb }

theorem binaryNode_ok (hf : f.WellLinked) (ha : f.IsRoot a) (hb : f.IsRoot b) (hne : a ≠ b)
    {sep : RawTree δ} (hsep : sep.operatorToken? = some tk)
    (hop : (operator? tk.kind).isSome = true) (span : Span) (source : Source) (ds : Array Diagnostic) :
    ∃ n f', binaryNode operator? a tk b span source ⟨f, ds⟩ = .ok (n, ⟨f', ds⟩) ∧
      MadeOver f f' a b n ∧ f'.range n = source.lines.textRange span ∧
      Operates operator? f' n a sep b := by
  obtain ⟨op, hop⟩ := Option.isSome_iff_exists.mp hop
  have hstart := Building.start hf (.binaryOperatorExpression op) (source.lines.textRange span)
  obtain ⟨f₁, hleft, hbuilding, h₁⟩ := hstart.set (t := .left) (hstart.roots a (by simp) ha)
    (Nat.ne_of_lt ha.lt) (by simp) source ds
  have htoken := hbuilding.allocate (.token tk.kind tk.text) (source.lines.textRange tk.span)
  have hroot := isRoot_allocate f₁ (.token tk.kind tk.text) (source.lines.textRange tk.span)
  have hlt := hbuilding.root.lt
  obtain ⟨f₂, htoken', hbuilding, h₂⟩ := htoken.set (t := .operatorToken) hroot (Nat.ne_of_gt hlt)
    (by simp) source ds
  have hb' := hbuilding.roots b (by
    simp only [List.nil_append, List.cons_append, List.map_cons, List.map_nil, List.mem_cons,
      List.not_mem_nil, or_false, not_or]
    exact ⟨hne.symm, Nat.ne_of_lt (Nat.lt_trans hb.lt hlt)⟩) hb
  obtain ⟨f₃, hright, hbuilding, h₃⟩ := hbuilding.set (t := .right) hb' (Nat.ne_of_lt hb.lt)
    (by simp) source ds
  refine ⟨f.size, f₃, ?_, ⟨hbuilding.linked, hbuilding.retains, hbuilding.root, hbuilding.new, ?_⟩,
    hbuilding.range, ⟨tk, op, f₁.size, hsep, hop, hbuilding.kind, ?_, hbuilding.children⟩⟩
  · simp only [binaryNode, hop]
    have hallocate : Lower.allocate (.binaryOperatorExpression op) span source ⟨f, ds⟩ =
        .ok (f.size, ⟨(f.allocate (.binaryOperatorExpression op)
          (source.lines.textRange span)).2, ds⟩) := rfl
    have hsetToken : Lower.setToken f.size .operatorToken tk source ⟨f₁, ds⟩ = .ok ((), ⟨f₂, ds⟩) :=
      htoken'
    rw [Lower.bind_ok hallocate, Lower.bind_ok hleft, Lower.bind_ok hsetToken, Lower.bind_ok hright]
    rfl
  · intro m hma hmb hm
    refine hbuilding.roots m ?_ hm
    simp only [List.nil_append, List.cons_append, List.map_cons, List.map_nil, List.mem_cons,
      List.not_mem_nil, or_false, not_or]
    exact ⟨hma, Nat.ne_of_lt (Nat.lt_trans hm.lt hlt), hmb⟩
  · rw [h₃.kind, h₂.kind]
    exact kind_allocate ..

/-! ## Trees of operators -/

theorem Operates.retained {sep : RawTree δ} (h : Operates operator? f n left sep right)
    (hr : f.Retains f') : Operates operator? f' n left sep right := by
  obtain ⟨tk, op, t, hsep, hop, hkind, htoken, hchildren⟩ := h.exists_operator
  have hn : n < f.size := lt_size_of_kind (by rw [hkind]; simp)
  have ht : t < f.size := lt_size_of_kind (by rw [htoken]; simp)
  exact ⟨tk, op, t, hsep, hop, (hr.kind n hn).trans hkind, (hr.kind t ht).trans htoken,
    fun u => (hr.children n u hn).trans (hchildren u)⟩

def spansOf (source : Source) (operands : List (RawTree δ × NodeId)) : List Span :=
  operands.map (·.1.span source.stream)

/-- A binary tree, grouped from the left or from the right, over operands with their nodes, and the
separators between these; `extent` says from where to where a node over some operands reaches. -/
inductive Grouped (operator? : TokenKind → Option BinaryOperator) (source : Source)
    (extent : List Span → Span) (f : Forest) :
    Bool → NodeId → List (RawTree δ × NodeId) → List (RawTree δ) → Prop
  | operand {rightward} (o : RawTree δ) (n : NodeId) :
      Grouped operator? source extent f rightward n [(o, n)] []
  | left {n left right : NodeId} {o sep : RawTree δ} {operands : List (RawTree δ × NodeId)}
      {separators : List (RawTree δ)}
      (hleft : Grouped operator? source extent f false left operands separators)
      (hoperates : Operates operator? f n left sep right)
      (hrange : f.range n =
        source.lines.textRange (extent (spansOf source (operands ++ [(o, right)])))) :
      Grouped operator? source extent f false n (operands ++ [(o, right)]) (separators ++ [sep])
  | right {n left right : NodeId} {o sep : RawTree δ} {operands : List (RawTree δ × NodeId)}
      {separators : List (RawTree δ)}
      (hright : Grouped operator? source extent f true right operands separators)
      (hoperates : Operates operator? f n left sep right)
      (hrange : f.range n =
        source.lines.textRange (extent (spansOf source ((o, left) :: operands)))) :
      Grouped operator? source extent f true n ((o, left) :: operands) (sep :: separators)

namespace Grouped

variable {extent extent' : List Span → Span} {rightward : Bool}
  {operands : List (RawTree δ × NodeId)} {separators : List (RawTree δ)}

theorem retained (h : Grouped operator? source extent f rightward n operands separators)
    (hr : f.Retains f') : Grouped operator? source extent f' rightward n operands separators := by
  induction h with
  | operand o n => exact .operand o n
  | left _ hoperates hrange ih =>
      exact .left ih (hoperates.retained hr) ((hr.range _ hoperates.lt).trans hrange)
  | right _ hoperates hrange ih =>
      exact .right ih (hoperates.retained hr) ((hr.range _ hoperates.lt).trans hrange)

theorem operands_ne_nil (h : Grouped operator? source extent f rightward n operands separators) :
    operands ≠ [] := by
  cases h <;> simp

/-- Another way to say how far the nodes reach. -/
theorem congr (h : Grouped operator? source extent f rightward n operands separators)
    (hextent : ∀ ss, ss.Sublist (spansOf source operands) → extent ss = extent' ss) :
    Grouped operator? source extent' f rightward n operands separators := by
  induction h with
  | operand o n => exact .operand o n
  | left _ hoperates hrange ih =>
      refine .left (ih fun ss hss => hextent ss ?_) hoperates (hextent _ (.refl _) ▸ hrange)
      exact hss.trans ((List.sublist_append_left _ _).map _)
  | right _ hoperates hrange ih =>
      refine .right (ih fun ss hss => hextent ss ?_) hoperates (hextent _ (.refl _) ▸ hrange)
      exact hss.trans ((List.sublist_cons_self _ _).map _)

end Grouped

/-! ## Rounds -/

/-- Wherever a step is taken, it makes a new root and leaves everything else as it was. -/
def MakesAlone (source : Source) (x : Lower NodeId) : Prop :=
  ∀ draft : Draft, draft.forest.WellLinked → ∃ n draft', x source draft = .ok (n, draft') ∧
    NewRoot draft.forest draft'.forest n

/-- From one draft to another each operand is lowered once, in the order given, to the node given with
it, which stays as it was made; in between, binary nodes are made and nothing else is done. -/
inductive InTurn (source : Source) (recur : Recur δ) (operator? : TokenKind → Option BinaryOperator)
    (last : Draft) : Draft → List (RawTree δ × NodeId) → Prop
  | done : InTurn source recur operator? last last []
  | operand {draft draft' : Draft} {o : RawTree δ} {n : NodeId} {operands : List (RawTree δ × NodeId)}
      (hlower : child recur o source draft = .ok (n, draft'))
      (hretains : draft'.forest.Retains last.forest)
      (hrest : InTurn source recur operator? last draft' operands) :
      InTurn source recur operator? last draft ((o, n) :: operands)
  | operator {draft draft' : Draft} {left right n : NodeId} {tk : Token} {span : Span}
      {operands : List (RawTree δ × NodeId)}
      (hmake : binaryNode operator? left tk right span source draft = .ok (n, draft'))
      (hrest : InTurn source recur operator? last draft' operands) :
      InTurn source recur operator? last draft operands

/-- A separator with a known operator, and an operand that can be lowered. -/
structure Linked (source : Source) (recur : Recur δ) (operator? : TokenKind → Option BinaryOperator)
    (pair : RawTree δ × RawTree δ) : Prop where
  operator : ∃ tk, pair.1.operatorToken? = some tk ∧ (operator? tk.kind).isSome = true
  operand : MakesAlone source (child recur pair.2)

/-- What a chain has come to: a tree over operands, in a draft with a new root. -/
structure Underway (source : Source) (operator? : TokenKind → Option BinaryOperator) (f : Forest)
    (draft : Draft) (rightward : Bool) (n : NodeId) (span : Span)
    (operands : List (RawTree δ × NodeId)) (separators : List (RawTree δ)) : Prop where
  root : NewRoot f draft.forest n
  grouped : Grouped operator? source Span.coverAll draft.forest rightward n operands separators
  span : span = Span.coverAll (spansOf source operands)

theorem NewRoot.over {f f₁ f₂ f₃ : Forest} {n m n' : NodeId} (hn : NewRoot f f₁ n)
    (hm : NewRoot f₁ f₂ m) (hmade : MadeOver f₂ f₃ n m n') : NewRoot f f₃ n' := by
  have hretains := (hn.retains.trans hm.retains).trans hmade.retains
  refine ⟨hmade.linked, hretains, ⟨hretains.size_le, hretains.kind, fun r _ hr => ?_⟩, hmade.root, ?_⟩
  · have hr₁ := hn.fresh.grows.root r trivial hr
    have hr₂ := hm.fresh.grows.root r trivial hr₁
    exact hmade.roots r (hn.fresh.ne hr).symm (hm.fresh.ne hr₁).symm hr₂
  · exact Nat.le_trans (hn.retains.trans hm.retains).size_le hmade.new

/-- One round: an operand is lowered, and a node is made over it and the tree so far. -/
theorem Underway.round {draft : Draft} {rightward : Bool} {span : Span} {sep o : RawTree δ}
    {operands : List (RawTree δ × NodeId)} {separators : List (RawTree δ)}
    (h : Underway source operator? f draft rightward n span operands separators)
    (hpair : Linked source recur operator? (sep, o)) :
    ∃ tk m draft₁ n' draft₂, sep.operatorToken? = some tk ∧
      child recur o source draft = .ok (m, draft₁) ∧
      (if rightward then binaryNode operator? m tk n (span.cover (o.span source.stream))
        else binaryNode operator? n tk m (span.cover (o.span source.stream))) source draft₁ =
          .ok (n', draft₂) ∧
      draft.forest.Retains draft₁.forest ∧ draft₁.forest.Retains draft₂.forest ∧
      Underway source operator? f draft₂ rightward n' (span.cover (o.span source.stream))
        (if rightward then (o, m) :: operands else operands ++ [(o, m)])
        (if rightward then sep :: separators else separators ++ [sep]) := by
  obtain ⟨tk, hsep, hop⟩ := hpair.operator
  obtain ⟨m, draft₁, hlower, hm⟩ := hpair.operand draft h.root.linked
  have hn : draft₁.forest.IsRoot n := hm.fresh.grows.root n trivial h.root.fresh.root
  have hne : m ≠ n := hm.fresh.ne h.root.fresh.root
  have hspans : spansOf source operands ≠ [] := by simpa [spansOf] using h.grouped.operands_ne_nil
  let span' := span.cover (o.span source.stream)
  cases rightward with
  | false =>
      have hspan : span' = Span.coverAll (spansOf source (operands ++ [(o, m)])) := by
        have hconcat : spansOf source (operands ++ [(o, m)]) =
            spansOf source operands ++ [o.span source.stream] := List.map_append
        rw [hconcat, Span.coverAll_concat hspans, ← h.span]
      obtain ⟨n', f', hmake, hmade, hrange, hoperates⟩ := binaryNode_ok hm.linked hn hm.fresh.root
        hne.symm hsep hop span' source draft₁.diagnostics
      have htree := h.grouped.retained (hm.retains.trans hmade.retains)
      exact ⟨tk, m, draft₁, n', ⟨f', _⟩, hsep, hlower, hmake, hm.retains, hmade.retains,
        NewRoot.over h.root hm hmade, .left htree hoperates (hspan ▸ hrange), hspan⟩
  | true =>
      have hspan : span' = Span.coverAll (spansOf source ((o, m) :: operands)) := by
        have hcons : spansOf source ((o, m) :: operands) =
            o.span source.stream :: spansOf source operands := rfl
        rw [hcons, Span.coverAll_cons hspans, ← h.span]
      obtain ⟨n', f', hmake, hmade, hrange, hoperates⟩ := binaryNode_ok hm.linked hm.fresh.root hn
        hne hsep hop span' source draft₁.diagnostics
      have htree := h.grouped.retained (hm.retains.trans hmade.retains)
      exact ⟨tk, m, draft₁, n', ⟨f', _⟩, hsep, hlower, hmake, hm.retains, hmade.retains,
        NewRoot.over h.root hm hmade.swap, .right htree hoperates (hspan ▸ hrange), hspan⟩

theorem chainLeft_ok {pairs : List (RawTree δ × RawTree δ)}
    (hpairs : ∀ p ∈ pairs, Linked source recur operator? p) {draft : Draft} {span : Span}
    {operands : List (RawTree δ × NodeId)} {separators : List (RawTree δ)}
    (h : Underway source operator? f draft false n span operands separators) :
    ∃ nodes n' draft' span', nodes.length = pairs.length ∧
      chainLeft g recur operator? pairs n span source draft = .ok (n', draft') ∧
      Underway source operator? f draft' false n' span' (operands ++ (pairs.map (·.2)).zip nodes)
        (separators ++ pairs.map (·.1)) ∧
      draft.forest.Retains draft'.forest ∧
      InTurn source recur operator? draft' draft ((pairs.map (·.2)).zip nodes) := by
  induction pairs generalizing draft n span operands separators with
  | nil => exact ⟨[], n, draft, span, rfl, rfl, by simpa using h, .refl _, .done⟩
  | cons pair pairs ih =>
      obtain ⟨sep, o⟩ := pair
      rw [List.forall_mem_cons] at hpairs
      obtain ⟨tk, m, draft₁, n₂, draft₂, hsep, hlower, hmake, hretains₁, hretains₂, hunderway⟩ :=
        h.round hpairs.1
      simp only [Bool.false_eq_true, if_false] at hmake hunderway
      obtain ⟨nodes, n', draft', span', hlength, hchain, hend, hretains, hturn⟩ := ih hpairs.2 hunderway
      refine ⟨m :: nodes, n', draft', span', by simp [hlength], ?_, ?_,
        (hretains₁.trans hretains₂).trans hretains,
        .operand hlower (hretains₂.trans hretains) (.operator hmake hturn)⟩
      · have hspan : spanOf o source draft₁ = .ok (o.span source.stream, draft₁) := rfl
        rw [chainLeft, Lower.bind_ok hlower, Lower.bind_ok hspan, operatorToken_eq hsep, pure_bind,
          Lower.bind_ok hmake, hchain]
      · simpa using hend

theorem chainRight_ok {pairs : List (RawTree δ × RawTree δ)}
    (hpairs : ∀ p ∈ pairs, Linked source recur operator? p) {draft : Draft} {span : Span}
    {operands : List (RawTree δ × NodeId)} {separators : List (RawTree δ)}
    (h : Underway source operator? f draft true n span operands separators) :
    ∃ nodes n' draft' span', nodes.length = pairs.length ∧
      chainRight g recur operator? pairs n span source draft = .ok (n', draft') ∧
      Underway source operator? f draft' true n' span'
        (((pairs.map (·.2)).zip nodes).reverse ++ operands) ((pairs.map (·.1)).reverse ++ separators) ∧
      draft.forest.Retains draft'.forest ∧
      InTurn source recur operator? draft' draft ((pairs.map (·.2)).zip nodes) := by
  induction pairs generalizing draft n span operands separators with
  | nil => exact ⟨[], n, draft, span, rfl, rfl, by simpa using h, .refl _, .done⟩
  | cons pair pairs ih =>
      obtain ⟨sep, o⟩ := pair
      rw [List.forall_mem_cons] at hpairs
      obtain ⟨tk, m, draft₁, n₂, draft₂, hsep, hlower, hmake, hretains₁, hretains₂, hunderway⟩ :=
        h.round hpairs.1
      simp only [if_true] at hmake hunderway
      obtain ⟨nodes, n', draft', span', hlength, hchain, hend, hretains, hturn⟩ := ih hpairs.2 hunderway
      refine ⟨m :: nodes, n', draft', span', by simp [hlength], ?_, ?_,
        (hretains₁.trans hretains₂).trans hretains,
        .operand hlower (hretains₂.trans hretains) (.operator hmake hturn)⟩
      · have hspan : spanOf o source draft₁ = .ok (o.span source.stream, draft₁) := rfl
        rw [chainRight, Lower.bind_ok hlower, Lower.bind_ok hspan, operatorToken_eq hsep, pure_bind,
          Lower.bind_ok hmake, hchain]
      · simpa using hend

/-- Where a chain of operands has led: each operand has been lowered once, in turn from one side, and
the operands stand in order in a tree that is grouped from that side. -/
structure Chained (source : Source) (recur : Recur δ) (operator? : TokenKind → Option BinaryOperator)
    (rightward : Bool) (operands separators : List (RawTree δ)) (draft draft' : Draft) (n : NodeId)
    (nodes : List NodeId) : Prop where
  length_eq : nodes.length = operands.length
  root : NewRoot draft.forest draft'.forest n
  inTurn : InTurn source recur operator? draft' draft
    (if rightward then (operands.zip nodes).reverse else operands.zip nodes)
  grouped : Grouped operator? source Span.coverAll draft'.forest rightward n (operands.zip nodes)
    separators

section Chains

variable {operands separators : List (RawTree δ)} {draft : Draft}

theorem exists_underway {o : RawTree δ} (ho : MakesAlone source (child recur o))
    (hdraft : draft.forest.WellLinked) (rightward : Bool) :
    ∃ n draft', child recur o source draft = .ok (n, draft') ∧
      Underway source operator? draft.forest draft' rightward n (o.span source.stream) [(o, n)] [] := by
  obtain ⟨n, draft', hlower, hn⟩ := ho draft hdraft
  exact ⟨n, draft', hlower, hn, .operand o n, rfl⟩

theorem linked_zip (hoperators : ∀ c ∈ separators, ∃ tk, c.operatorToken? = some tk ∧
      (operator? tk.kind).isSome = true)
    (hoperands : ∀ o ∈ operands, MakesAlone source (child recur o)) :
    ∀ p ∈ separators.zip operands, Linked source recur operator? p := fun p hp =>
  ⟨hoperators p.1 (List.of_mem_zip hp).1, hoperands p.2 (List.of_mem_zip hp).2⟩

theorem exists_chainLeft {first : RawTree δ} {rest : List (RawTree δ)}
    (hlength : rest.length = separators.length)
    (hoperators : ∀ c ∈ separators, ∃ tk, c.operatorToken? = some tk ∧
      (operator? tk.kind).isSome = true)
    (hoperands : ∀ o ∈ first :: rest, MakesAlone source (child recur o))
    (hdraft : draft.forest.WellLinked) :
    ∃ nodes n draft', (do
        let n ← child recur first
        chainLeft g recur operator? (separators.zip rest) n (← spanOf first)) source draft =
          .ok (n, draft') ∧
      Chained source recur operator? false (first :: rest) separators draft draft' n nodes := by
  rw [List.forall_mem_cons] at hoperands
  obtain ⟨n, draft₁, hlower, hunderway⟩ := exists_underway hoperands.1 hdraft false
  obtain ⟨nodes, n', draft', span', hnodes, hchain, hend, hretains, hturn⟩ :=
    chainLeft_ok (g := g) (linked_zip hoperators hoperands.2) hunderway
  rw [List.map_snd_zip (Nat.le_of_eq hlength)] at hend hturn
  rw [List.map_fst_zip (Nat.le_of_eq hlength.symm)] at hend
  have hspan : spanOf first source draft₁ = .ok (first.span source.stream, draft₁) := rfl
  refine ⟨n :: nodes, n', draft', ?_, ?_, hend.root, .operand hlower hretains hturn, hend.grouped⟩
  · rw [Lower.bind_ok hlower, Lower.bind_ok hspan, hchain]
  · rw [List.length_cons, List.length_cons, hnodes, List.length_zip, hlength, Nat.min_self]

theorem exists_chainRight {init : List (RawTree δ)} {last : RawTree δ}
    (hlength : init.length = separators.length)
    (hoperators : ∀ c ∈ separators, ∃ tk, c.operatorToken? = some tk ∧
      (operator? tk.kind).isSome = true)
    (hoperands : ∀ o ∈ init ++ [last], MakesAlone source (child recur o))
    (hdraft : draft.forest.WellLinked) :
    ∃ nodes n draft', (do
        let n ← child recur last
        chainRight g recur operator? (separators.zip init).reverse n (← spanOf last)) source draft =
          .ok (n, draft') ∧
      Chained source recur operator? true (init ++ [last]) separators draft draft' n nodes := by
  rw [List.forall_mem_append, List.forall_mem_singleton] at hoperands
  obtain ⟨n, draft₁, hlower, hunderway⟩ := exists_underway hoperands.2 hdraft true
  have hlinked : ∀ p ∈ (separators.zip init).reverse, Linked source recur operator? p := fun p hp =>
    linked_zip hoperators hoperands.1 p (List.mem_reverse.mp hp)
  obtain ⟨nodes, n', draft', span', hnodes, hchain, hend, hretains, hturn⟩ :=
    chainRight_ok (g := g) hlinked hunderway
  rw [List.length_reverse, List.length_zip, ← hlength, Nat.min_self] at hnodes
  rw [List.map_reverse, List.map_snd_zip (Nat.le_of_eq hlength)] at hend hturn
  rw [List.map_reverse, List.map_fst_zip (Nat.le_of_eq hlength.symm), List.reverse_reverse,
    List.append_nil] at hend
  -- the nodes were made from the last operand to the first
  have hreverse : (init.reverse.zip nodes).reverse = init.zip nodes.reverse := by
    rw [List.zip, List.reverse_zipWith (by rw [List.length_reverse, hnodes]), List.reverse_reverse]
  have hzip : (init ++ [last]).zip (nodes.reverse ++ [n]) = init.zip nodes.reverse ++ [(last, n)] :=
    List.zip_append (by rw [List.length_reverse, hnodes])
  have hspan : spanOf last source draft₁ = .ok (last.span source.stream, draft₁) := rfl
  refine ⟨nodes.reverse ++ [n], n', draft', ?_, ?_, hend.root, ?_, ?_⟩
  · rw [Lower.bind_ok hlower, Lower.bind_ok hspan, hchain]
  · simp [hnodes]
  · rw [if_pos rfl, hzip, List.reverse_append, ← hreverse, List.reverse_reverse]
    exact .operand hlower hretains hturn
  · rw [hzip, ← hreverse]
    exact hend.grouped

end Chains

/-! ## Operands that can be lowered -/

/-- Since a forest, lowering has changed nothing about the nodes that were there. -/
def keepingAll (f : Forest) : Upkeep where
  holds _ d := f.Gains (fun _ => True) d.forest ∧ ∀ n, n < f.size → d.forest.range n = f.range n
  kinds _ := True
  owns n := f.size ≤ n
  inner _ := trivial
  allocate range h _ := by
    refine ⟨⟨h.1.allocate trivial range, fun n hn => ?_⟩, h.1.size_le⟩
    rw [(Retains.allocate ..).range n (Nat.lt_of_lt_of_le hn h.1.size_le), h.2 n hn]
  set h howner hc hset := by
    refine ⟨h.1.setChild? howner hc hset, fun n hn => ?_⟩
    rcases h.1.linked.edited_of_setChild? hset with ⟨-, heq⟩ | hedited
    · exact heq ▸ h.2 n hn
    · rw [hedited.range, h.2 n hn]
  push h howner hc happend := by
    refine ⟨h.1.appendChild? howner hc happend, fun n hn => ?_⟩
    obtain ⟨list, hedited⟩ := h.1.linked.edited_of_appendChild? happend
    rw [hedited.range, h.2 n hn]
  detach h hc := ⟨h.1.detach hc, fun n hn => by rw [range_detach, h.2 n hn]⟩
  child h hn hc := h.1.child_new hn hc

/-- Lowering a tree leaves all nodes that were there as they were. -/
theorem retains_of_lowerUpTo [BEq δ] {fuel : Nat} {t : RawTree δ} {draft draft' : Draft}
    (hdraft : draft.forest.WellLinked) (h : lowerUpTo g fuel t source draft = .ok (n, draft')) :
    draft'.forest.WellLinked ∧ draft.forest.Retains draft'.forest := by
  have haccepts : Accepts g (keepingAll draft.forest) fun _ => True :=
    ⟨fun _ _ => trivial, fun _ _ => Shape.makes_true _, fun _ _ => .inr ⟨fun _ h => h, fun _ h => h⟩⟩
  obtain ⟨⟨hgains, hranges⟩, -⟩ :=
    adds_lowerUpTo haccepts fuel trivial ⟨.refl hdraft, fun _ _ => rfl⟩ h
  exact ⟨hgains.linked, hgains.size_le, hgains.kind, hranges, hgains.children⟩

theorem makesAlone_leaf (t : Token) : MakesAlone source (child recur (.leaf t)) := fun _ hdraft =>
  ⟨_, _, rfl, hdraft.allocate _ _, .allocate .., fresh_allocate ..⟩

/-- In a text, every match that holds no refused match can be lowered. -/
theorem Setting.makesAlone [BEq δ] {s : Survey δ} {e : LowerError} {ready clean : RawTree δ → Prop}
    {fuel : Nat} (hs : Setting s source e ready clean (lowerUpTo s.grammar fuel)) {t : RawTree δ}
    (ht : ready t) (hadmits : s.admits t.symbol = true) (hclean : clean t) :
    MakesAlone source (Lowering.child (lowerUpTo s.grammar fuel) t) := by
  cases t with
  | leaf tk => exact makesAlone_leaf tk
  | node form i j cs =>
      intro draft hdraft
      have hmakes : Makes source e (clean (.node form i j cs)) (Lowering.child _ _) draft :=
        hs.makes_child ht hadmits
      obtain ⟨n, draft', hlower, hfresh⟩ := hmakes.succeeds hclean
      obtain ⟨hlinked, hretains⟩ := retains_of_lowerUpTo hdraft hlower
      exact ⟨n, draft', hlower, hlinked, hretains, hfresh⟩

/-- A chain in a parsed text has operands with operators between them, and if it holds no refused match,
every operand can be lowered. -/
theorem links_of_parseRaw {l : Language} {fragment : Fragment} {src : List Char} {source : Source}
    {raw : RawTree l.Form} {d : l.Form} {i j least : Nat} {cs : List (RawTree l.Form)}
    {el sep : Rule l.Form} {operator? : TokenKind → Option BinaryOperator}
    (h : parseRaw l fragment src = .ok (source, raw)) (hmem : .node (some d) i j cs ∈ raw.nodes)
    (hclean : Clean l.refuses (.node (some d) i j cs))
    (hrule : l.survey.grammar.rule d = some (.list el (some sep) least false))
    (hchain : l.survey.isChain operator? d = true) {fuel : Nat}
    (hfuel : (RawTree.node (some d) i j cs).height ≤ fuel) :
    ∃ operands separators,
      (RawTree.node (some d) i j cs).listItems l.survey.grammar = (operands, separators) ∧
      operands.length = separators.length + 1 ∧
      (∀ c ∈ separators, ∃ tk, c.operatorToken? = some tk ∧ (operator? tk.kind).isSome = true) ∧
      ∀ o ∈ operands, MakesAlone source (child (lowerUpTo l.survey.grammar fuel) o) := by
  have hs := l.setting source fuel
  have hready := ready_of_parseRaw h hmem rfl hfuel
  have hopened := hs.opened hready
  have hlist : l.survey.isList d = true := by
    simp only [Survey.isChain, Survey.isList1, Bool.and_eq_true] at hchain
    exact hchain.1.1
  have hlength : cs.length % 2 = 1 := by
    cases hready.conforms with
    | node hrule' hspells _ =>
        cases hrule.symm.trans hrule'
        simp only [Survey.isChain, Survey.isList1, Survey.isList, hrule, Bool.and_eq_true,
          bne_iff_ne] at hchain
        obtain ⟨⟨⟨-, ⟨⟨hel, hsep⟩, -⟩, -⟩, hleast, -⟩, -⟩ := hchain
        have hodd := Rule.Spells.odd hel hsep hleast hspells
        rwa [List.length_map] at hodd
  have hitems : (RawTree.node (some d) i j cs).listItems l.survey.grammar = RawTree.alternate cs := by
    rw [RawTree.listItems, hrule]
    rfl
  obtain ⟨-, hoperators⟩ := Setting.items_of_isChain hchain hopened
  obtain ⟨hadmits, -⟩ := Setting.items_of_isList hlist hopened
  refine ⟨(RawTree.alternate cs).1, (RawTree.alternate cs).2, hitems, ?_, fun c hc => ?_, fun o ho => ?_⟩
  · have hhalves := Setting.length_alternate cs
    omega
  · obtain ⟨tk, rfl, hop⟩ := hoperators c (hitems ▸ hc)
    exact ⟨tk, rfl, hop⟩
  · rw [← hitems] at ho
    have hchild := Setting.mem_children_of_mem_items ho
    exact hs.makesAlone (hs.child hready hchild) (hadmits o ho) (hclean.child hchild)

/-- **A chain becomes a tree that loses nothing.**  Let a match have one operand more than separators,
all separators known operators and all operands such that they can be lowered.  Then the chain becomes a
binary tree, grouped from the side asked for, in which operands and operators stand in their order; every
operand is lowered once, in turn from that side.  A node of the tree covers what its operands cover: if
these follow each other, from the first to the last. -/
theorem chain_grouped {raw : RawTree δ} {operands separators : List (RawTree δ)}
    (hitems : raw.listItems g = (operands, separators))
    (hlength : operands.length = separators.length + 1)
    (hoperators : ∀ c ∈ separators, ∃ tk, c.operatorToken? = some tk ∧
      (operator? tk.kind).isSome = true)
    (hoperands : ∀ o ∈ operands, MakesAlone source (child recur o)) {draft : Draft}
    (hdraft : draft.forest.WellLinked) (rightward : Bool) :
    ∃ nodes n draft', chain g recur operator? rightward raw source draft = .ok (n, draft') ∧
      Chained source recur operator? rightward operands separators draft draft' n nodes ∧
      ((operands.map (·.span source.stream)).Pairwise Span.Precedes →
        Grouped operator? source Span.fromFirstToLast draft'.forest rightward n (operands.zip nodes)
          separators) := by
  have hchained : ∃ nodes n draft', chain g recur operator? rightward raw source draft = .ok (n, draft') ∧
      Chained source recur operator? rightward operands separators draft draft' n nodes := by
    rw [chain, hitems]
    cases rightward with
    | false =>
        obtain ⟨first, rest, rfl⟩ := List.exists_cons_of_length_eq_add_one hlength
        exact exists_chainLeft (Nat.succ.inj hlength) hoperators hoperands hdraft
    | true =>
        obtain ⟨init, last, rfl⟩ : ∃ init last, operands = init ++ [last] :=
          ⟨_, _, (List.dropLast_concat_getLast (List.ne_nil_of_length_eq_add_one hlength)).symm⟩
        have hlength : init.length = separators.length := by simpa using hlength
        have h := exists_chainRight (g := g) hlength hoperators hoperands hdraft
        simpa only [if_true, List.getLast?_concat, List.dropLast_concat] using h
  obtain ⟨nodes, n, draft', hchain, hchained⟩ := hchained
  refine ⟨nodes, n, draft', hchain, hchained, fun hfollow => ?_⟩
  have hspans : spansOf source (operands.zip nodes) = operands.map (·.span source.stream) := by
    have hzip := List.map_fst_zip (Nat.le_of_eq hchained.length_eq.symm)
    rw [← hzip, spansOf, List.map_map, hzip]
    rfl
  exact hchained.grouped.congr fun ss hss => Span.coverAll_eq (List.Pairwise.sublist (hspans ▸ hss) hfollow)

/-- A chain of three names in a parsed text, grouped from the right. -/
theorem chain_grouped_threeOperands :
    ∃ source raw i j cs, parseRaw .csharp .expression "a ?? b ?? c".toList = .ok (source, raw) ∧
      .node (some .nullCoalescingExpression) i j cs ∈ raw.nodes ∧
      ∃ operands separators nodes n draft',
        (RawTree.node (some .nullCoalescingExpression) i j cs).listItems CSharp.grammar =
          (operands, separators) ∧
        operands.length = 3 ∧
        chain CSharp.grammar (lowerUpTo CSharp.grammar raw.height) CSharp.binaryOperator? true
          (.node (some .nullCoalescingExpression) i j cs) source {} = .ok (n, draft') ∧
        Grouped CSharp.binaryOperator? source Span.fromFirstToLast draft'.forest true n
          (operands.zip nodes) separators := by
  have hparsed : (parseRaw .csharp .expression "a ?? b ?? c".toList).toOption.any (fun p =>
      p.2.nodes.any fun u => u.symbol == .node (some .nullCoalescingExpression) &&
        !u.nodes.any Language.csharp.refuses && decide (u.height ≤ p.2.height) &&
        (u.listItems CSharp.grammar).1.length == 3 &&
        decide (((u.listItems CSharp.grammar).1.map (·.span p.1.stream)).Pairwise Span.Precedes)) =
          true := by
    decide +kernel
  obtain ⟨source, raw, hraw, hfound⟩ := exists_parseRaw hparsed
  obtain ⟨u, hmem, hu⟩ := List.any_eq_true.mp hfound
  simp only [Bool.and_eq_true, beq_iff_eq, decide_eq_true_eq, Bool.not_eq_true'] at hu
  obtain ⟨⟨⟨⟨hsymbol, hnone⟩, hheight⟩, hthree⟩, hfollow⟩ := hu
  obtain ⟨i, j, cs, rfl⟩ : ∃ i j cs, u = .node (some .nullCoalescingExpression) i j cs := by
    cases u with
    | leaf => cases hsymbol
    | node form i j cs =>
        cases hsymbol
        exact ⟨i, j, cs, rfl⟩
  have hclean : Clean Language.csharp.refuses (.node (some .nullCoalescingExpression) i j cs) :=
    fun v hv => by simpa using List.any_eq_false.mp hnone v hv
  have hlevel : Language.csharp.survey.isChain CSharp.binaryOperator? .nullCoalescingExpression = true := by
    decide
  obtain ⟨operands, separators, hitems, hlength, hoperators, hoperands⟩ :=
    links_of_parseRaw hraw hmem hclean rfl hlevel hheight
  have hdraft : ({} : Draft).forest.WellLinked := WellLinked.empty
  obtain ⟨nodes, n, draft', hchain, -, hgrouped⟩ :=
    chain_grouped hitems hlength hoperators hoperands hdraft true
  rw [show (RawTree.node (some CSharp.Form.nullCoalescingExpression) i j cs).listItems CSharp.grammar =
    (operands, separators) from hitems] at hthree hfollow
  exact ⟨source, raw, i, j, cs, hraw, hmem, operands, separators, nodes, n, draft', hitems, hthree, hchain,
    hgrouped hfollow⟩

end Lowering

end DualSyntax
