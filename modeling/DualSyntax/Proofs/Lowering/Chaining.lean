import DualSyntax.Proofs.Lowering.Fitting

/-!
# Nodes made one around the other

Operator chains, dotted names, array types and suffixes are flat matches that become nested nodes.
Each round takes the node made so far, which is a root, and makes a new root around it.
-/

namespace DualSyntax.Lowering

open Forest Lower

variable {δ : Type}

theorem does_binaryNode {source : Source} {e : LowerError} {draft : Draft} {f : Forest}
    {a b : NodeId} {operator? : TokenKind → Option BinaryOperator} {tk : Token}
    (hoperator : (operator? tk.kind).isSome = true) (span : Span)
    (h : FreshAll f draft.forest [a, b]) :
    Does source e True (binaryNode operator? a tk b span) draft fun n draft' =>
      Fresh f draft'.forest n := by
  obtain ⟨op, hop⟩ := Option.isSome_iff_exists.mp hoperator
  simp only [binaryNode, hop]
  exact (does_over (fun n _ hn => steps_setToken .operatorToken tk hn) _ _ _ _ h).imp
    fun _ _ h => h.1

namespace Survey

variable (s : Survey δ)

/-- Whether the matches of a definition are lists of at least one element. -/
def isFilled (d : δ) : Bool :=
  match s.grammar.rule d with
  | some (.list e _ least _) => least != 0 && e.unit
  | _ => false

/-- Whether the matches of a list definition have at least one element. -/
def isList1 (d : δ) : Bool :=
  s.isList d && match s.grammar.rule d with
    | some (.list e _ least _) => least != 0 && e.unit
    | _ => false

/-- Whether the matches of a definition are operands with operators between them. -/
def isChain (operator? : TokenKind → Option BinaryOperator) (d : δ) : Bool :=
  s.isList1 d && match s.grammar.rule d with
    | some (.list _ (some sep) _ _) => sep.every fun
      | .token k => (operator? k).isSome
      | .node _ => false
    | _ => false

/-- What a suffix that begins with a token makes: the kind of the node, the titles of what it is
applied to and of the token, and the parts that follow. -/
def suffixPlan? : TokenKind → Option (NodeKind × Title × Title × List (Part δ))
  | .dot => some (.memberReferenceExpression false, .target, .dot, [.node .identifier])
  | .questionDot => some (.memberReferenceExpression true, .target, .dot, [.node .identifier])
  | .lParen =>
    some (.invocationExpression, .target, .leftParenthesis,
      [.list .arguments, .keep .rParen .rightParenthesis])
  | .lBracket =>
    some (.indexerExpression, .target, .leftBracket,
      [.list .arguments, .keep .rBracket .rightBracket])
  | .plusPlus => some (.unaryOperatorExpression .postIncrement, .expression, .operatorToken, [])
  | .minusMinus => some (.unaryOperatorExpression .postDecrement, .expression, .operatorToken, [])
  | _ => none

/-- Whether a definition's matches begin with tokens after which something holds of the outlook. -/
def afterTokens (p : TokenKind → Outlook δ → Bool) (d : δ) : Bool :=
  !s.refusable d && (s.opening d).all fun
    | some (.token k, _) => p k ((s.opening d).past (·.isAny [k]))
    | _ => false

def isSuffix [DecidableEq δ] (d : δ) : Bool :=
  s.afterTokens (fun k o => (suffixPlan? k).any fun (_, _, _, parts) =>
    s.leaves (s.partsAfter d parts o)) d

/-- Whether the matches of a definition are operators or type tests with what follows them. -/
def isComparison (operator? : TokenKind → Option BinaryOperator) (d : δ) : Bool :=
  s.afterTokens (fun k o => (k == .kwIs || k == .kwAs || (operator? k).isSome) &&
    o.must (·.isFormOf s.lowered) && (o.past (·.isFormOf s.lowered)).every s.spares) d

/-- Whether something that becomes a node comes first and then only matches of some forms. -/
def isRow (p : δ → Bool) (o : Outlook δ) : Bool :=
  o.must (·.isFormOf s.lowered) && (o.past (·.isFormOf s.lowered)).every (·.isFormOf p)

end Survey

namespace Setting

variable {s : Survey δ} {source : Source} {e : LowerError} {ready clean : RawTree δ → Prop}
  {recur : Recur δ} {draft : Draft} {f : Forest} {d : δ} {r : Rule δ} {i j : Nat}
  {cs : List (RawTree δ)} {o o' : Outlook δ} {c : Cursor δ} {raw t : RawTree δ} {n : NodeId}

/-! ## Chains -/

/-- A list with at least one element shows one. -/
theorem items_ne_nil_of_isFilled (hd : s.isFilled d = true)
    (ht : Conforms s.grammar (.node (some d) i j cs)) :
    ((RawTree.node (some d) i j cs).listItems s.grammar).1 ≠ [] := by
  cases ht with
  | @node _ _ _ _ r hrule hspells _ =>
      simp only [Survey.isFilled, hrule] at hd
      cases r with
      | list el sep least trailing =>
          simp only [Bool.and_eq_true, bne_iff_ne] at hd
          have hne : cs ≠ [] := by
            rintro rfl
            cases hspells with
            | noElement hleast _ => exact hd.1 hleast
            | elements h =>
                obtain ⟨a, w, hw, -⟩ := h.unit hd.2 (Rule.every_true el)
                cases hw
          obtain ⟨c, cs', rfl⟩ := List.exists_cons_of_ne_nil hne
          simp only [RawTree.listItems, RawTree.alternate]
          split <;> simp
      | _ => cases hd

theorem items_ne_nil (hd : s.isList1 d = true)
    (ht : Opened s.grammar ready (.node (some d) i j cs)) :
    ((RawTree.node (some d) i j cs).listItems s.grammar).1 ≠ [] := by
  rw [Survey.isList1, Bool.and_eq_true] at hd
  exact items_ne_nil_of_isFilled hd.2 ht.conforms

/-- An operator and its second operand, or in a chain grouped from the right its first. -/
structure Link (s : Survey δ) (ready : RawTree δ → Prop)
    (operator? : TokenKind → Option BinaryOperator) (pair : RawTree δ × RawTree δ) : Prop where
  operator : ∃ tk, pair.1 = .leaf tk ∧ (operator? tk.kind).isSome = true
  ready : ready pair.2
  admits : s.admits pair.2.symbol = true

theorem does_chainLeft (hs : Setting s source e ready clean recur)
    {operator? : TokenKind → Option BinaryOperator} {pairs : List (RawTree δ × RawTree δ)}
    (hpairs : ∀ p ∈ pairs, Link s ready operator? p) (span : Span)
    (hn : Fresh f draft.forest n) :
    Does source e (∀ p ∈ pairs, clean p.2) (chainLeft s.grammar recur operator? pairs n span) draft
      fun m draft' => Fresh f draft'.forest m := by
  induction pairs generalizing draft n span with
  | nil => exact (Does.pure hn).given (by simp)
  | cons pair pairs ih =>
      obtain ⟨separator, operand⟩ := pair
      rw [List.forall_mem_cons] at hpairs ⊢
      obtain ⟨⟨tk, hleaf, hoperator⟩, hready, hadmits⟩ := hpairs.1
      dsimp only at hleaf
      subst hleaf
      refine (hs.makes_child hready hadmits).bind fun _ m draft₁ hm => .after rfl (.after rfl ?_)
      refine (does_binaryNode hoperator _ (FreshAll.pair hn hm)).andThen fun m' draft₂ hm' => ?_
      exact ih hpairs.2 _ hm'

theorem does_chainRight (hs : Setting s source e ready clean recur)
    {operator? : TokenKind → Option BinaryOperator} {pairs : List (RawTree δ × RawTree δ)}
    (hpairs : ∀ p ∈ pairs, Link s ready operator? p) (span : Span)
    (hn : Fresh f draft.forest n) :
    Does source e (∀ p ∈ pairs, clean p.2) (chainRight s.grammar recur operator? pairs n span) draft
      fun m draft' => Fresh f draft'.forest m := by
  induction pairs generalizing draft n span with
  | nil => exact (Does.pure hn).given (by simp)
  | cons pair pairs ih =>
      obtain ⟨separator, operand⟩ := pair
      rw [List.forall_mem_cons] at hpairs ⊢
      obtain ⟨⟨tk, hleaf, hoperator⟩, hready, hadmits⟩ := hpairs.1
      dsimp only at hleaf
      subst hleaf
      refine (hs.makes_child hready hadmits).bind fun _ m draft₁ hm => .after rfl (.after rfl ?_)
      refine (does_binaryNode hoperator _ (FreshAll.pair hn hm).swap).andThen
        fun m' draft₂ hm' => ?_
      exact ih hpairs.2 _ hm'

theorem length_alternate (ts : List (RawTree δ)) :
    (RawTree.alternate ts).1.length = (ts.length + 1) / 2 ∧
      (RawTree.alternate ts).2.length = ts.length / 2 := by
  induction ts with
  | nil => simp [RawTree.alternate]
  | cons t ts ih =>
      rw [RawTree.alternate]
      dsimp only [List.length_cons]
      omega

theorem items_of_isChain {operator? : TokenKind → Option BinaryOperator}
    (hd : s.isChain operator? d = true) (ht : Opened s.grammar ready (.node (some d) i j cs)) :
    ((RawTree.node (some d) i j cs).listItems s.grammar).1.length ≤
        ((RawTree.node (some d) i j cs).listItems s.grammar).2.length + 1 ∧
      ∀ c ∈ ((RawTree.node (some d) i j cs).listItems s.grammar).2,
        ∃ tk, c = .leaf tk ∧ (operator? tk.kind).isSome = true := by
  cases ht.conforms with
  | @node _ _ _ _ r hrule hspells _ =>
      simp only [Survey.isChain, Survey.isList1, Survey.isList, hrule, Bool.and_eq_true] at hd
      cases r with
      | list el sep least trailing =>
          cases sep with
          | none => cases hd.2
          | some sep =>
              simp only [Bool.and_eq_true] at hd
              obtain ⟨⟨⟨-, ⟨⟨hel, hsep⟩, hadmits⟩, -⟩, -⟩, hoperators⟩ := hd
              simp only [RawTree.listItems, hrule, Option.any_some, Rule.isSeparated,
                Option.isSome_some, if_true]
              refine ⟨by have := length_alternate cs; omega, fun c hc => ?_⟩
              have hop := (alternate_of_alternates
                (hspells.alternates hel hsep hadmits hoperators)).2 c hc
              cases c with
              | leaf tk => exact ⟨tk, rfl, hop⟩
              | node => cases hop
      | _ => cases hd.2

theorem links_of_isChain {operator? : TokenKind → Option BinaryOperator} (hd : s.isChain operator? d = true)
    (ht : Opened s.grammar ready (.node (some d) i j cs)) (ts : List (RawTree δ))
    (hts : ∀ t ∈ ts, t ∈ ((RawTree.node (some d) i j cs).listItems s.grammar).1) :
    ∀ p ∈ ((RawTree.node (some d) i j cs).listItems s.grammar).2.zip ts,
      Link s ready operator? p := by
  rintro ⟨separator, operand⟩ hp
  obtain ⟨hseparator, hoperand⟩ := List.of_mem_zip hp
  have hlist : s.isList d = true := by
    simp only [Survey.isChain, Survey.isList1, Bool.and_eq_true] at hd
    exact hd.1.1
  refine ⟨(items_of_isChain hd ht).2 separator hseparator, ?_, ?_⟩
  · exact ht.child (mem_children_of_mem_items (hts operand hoperand))
  · exact (items_of_isList hlist ht).1 operand (hts operand hoperand)

theorem forall_zip_snd {α β : Type} {p : β → Prop} {xs : List α} {ys : List β}
    (h : ys.length ≤ xs.length) : (∀ q ∈ xs.zip ys, p q.2) ↔ ∀ y ∈ ys, p y := by
  have hmap := List.map_snd_zip h
  constructor
  · intro hall y hy
    rw [← hmap] at hy
    obtain ⟨q, hq, rfl⟩ := List.mem_map.mp hy
    exact hall q hq
  · intro hall q hq
    exact hall q.2 (hmap ▸ List.mem_map_of_mem hq)

theorem makes_chain [DecidableEq δ] (hs : Setting s source e ready clean recur)
    {operator? : TokenKind → Option BinaryOperator} (hd : s.isChain operator? d = true)
    (ht : Opened s.grammar ready (.node (some d) i j cs)) (rightward : Bool) :
    Makes source e (clean (.node (some d) i j cs))
      (shaped s.grammar recur (.node (some d) i j cs) (.chain operator? rightward)) draft := by
  have hlist1 : s.isList1 d = true := by
    rw [Survey.isChain, Bool.and_eq_true] at hd
    exact hd.1
  have hlist : s.isList d = true := by
    rw [Survey.isList1, Bool.and_eq_true] at hlist1
    exact hlist1.1
  have hne := items_ne_nil hlist1 ht
  have hlinks := fun ts => links_of_isChain hd ht ts
  have hlength := (items_of_isChain hd ht).1
  have hitems := (items_of_isList hlist ht).1
  have hready : ∀ c ∈ ((RawTree.node (some d) i j cs).listItems s.grammar).1, ready c :=
    fun c hc => ht.child (mem_children_of_mem_items hc)
  refine Does.iff ?_ (hs.clean_items hlist ht)
  rw [shaped, chain]
  generalize (RawTree.node (some d) i j cs).listItems s.grammar = items at *
  obtain ⟨operands, separators⟩ := items
  dsimp only at *
  cases rightward with
  | false =>
      obtain ⟨first, rest, rfl⟩ := List.exists_cons_of_ne_nil hne
      rw [List.forall_mem_cons] at hitems hready ⊢
      rw [List.length_cons] at hlength
      rw [← forall_zip_snd (by omega : rest.length ≤ separators.length)]
      refine (hs.makes_child hready.1 hitems.1).bind fun _ n draft₁ hn => .after rfl ?_
      exact hs.does_chainLeft (hlinks rest fun t ht => List.mem_cons_of_mem _ ht) _ hn
  | true =>
      have hlast := List.getLast?_eq_some_getLast hne
      have hsplit := List.dropLast_concat_getLast hne
      generalize operands.getLast hne = last at hlast hsplit
      have hmem : last ∈ operands := hsplit ▸ List.mem_append_right _ (List.mem_singleton_self last)
      have hclean : (∀ t ∈ operands, clean t) ↔ clean last ∧
          ∀ q ∈ (separators.zip operands.dropLast).reverse, clean q.2 := by
        simp only [List.mem_reverse]
        rw [forall_zip_snd (by rw [List.length_dropLast]; omega), ← hsplit]
        simp [or_imp, forall_and, and_comm]
      simp only [hlast, if_true]
      rw [hclean]
      refine (hs.makes_child (hready last hmem) (hitems last hmem)).bind fun _ n draft₁ hn =>
        .after rfl ?_
      refine hs.does_chainRight (fun q hq => ?_) _ hn
      exact hlinks operands.dropLast (fun t ht => (List.dropLast_sublist _).subset ht) q
        (List.mem_reverse.mp hq)

/-! ## Dotted names -/

def IsTypeName (f : Forest) (n : NodeId) : Prop := f.kind n = .simpleType ∨ f.kind n = .memberType

theorem does_qualify (hs : Setting s source e ready clean recur) {ts : List (RawTree δ)}
    (hts : ∀ t ∈ ts, ready t ∧ s.admits t.symbol = true) (span : Span)
    (hn : Fresh f draft.forest n) (hkind : IsTypeName draft.forest n) :
    Does source e (∀ t ∈ ts, clean t) (qualify recur ts n span) draft
      fun m draft' => Fresh f draft'.forest m ∧ IsTypeName draft'.forest m := by
  induction ts generalizing draft n span with
  | nil => exact (Does.pure ⟨hn, hkind⟩).given (by simp)
  | cons t ts ih =>
      rw [List.forall_mem_cons] at hts ⊢
      refine (hs.makes_child hts.1.1 hts.1.2).bind fun _ m draft₁ hm => .after rfl ?_
      have hnothing : ∀ (n : NodeId) (draft : Draft), draft.forest.IsRoot n →
          Steps source e True (pure ()) draft := fun _ _ _ => .pure (Keeps.refl _ _)
      have hover := does_over hnothing .memberType
        (span.cover (t.span source.stream)) .target .identifier (FreshAll.pair hn hm)
      simp only [pure_bind] at hover
      have hrest := hover.andThen fun m' draft₂ hm' =>
        ih hts.2 (span.cover (t.span source.stream)) hm'.1 (.inr hm'.2)
      simpa only [bind_assoc, pure_bind] using hrest

theorem does_qualifiedType [DecidableEq δ] (hs : Setting s source e ready clean recur)
    (hd : s.isList1 d = true) (ht : Opened s.grammar ready (.node (some d) i j cs)) :
    Does source e (clean (.node (some d) i j cs))
      (shaped s.grammar recur (.node (some d) i j cs) .qualifiedType) draft fun n draft' =>
        Fresh draft.forest draft'.forest n ∧ IsTypeName draft'.forest n := by
  have hlist : s.isList d = true := by
    rw [Survey.isList1, Bool.and_eq_true] at hd
    exact hd.1
  have hitems : ∀ t ∈ ((RawTree.node (some d) i j cs).listItems s.grammar).1,
      ready t ∧ s.admits t.symbol = true := fun t ht' =>
    ⟨ht.child (mem_children_of_mem_items ht'), (items_of_isList hlist ht).1 t ht'⟩
  refine Does.iff ?_ (hs.clean_items hlist ht)
  rw [shaped, qualifiedType]
  obtain ⟨first, rest, hcons⟩ := List.exists_cons_of_ne_nil (items_ne_nil hd ht)
  rw [hcons, List.forall_mem_cons] at hitems ⊢
  refine (hs.makes_child hitems.1.1 hitems.1.2).bind fun _ name draft₁ hname => .after rfl ?_
  have hrest := (does_wrap source e hname .simpleType .identifier
    (first.span source.stream)).andThen fun m draft₂ hm =>
      hs.does_qualify hitems.2 (first.span source.stream) hm.fresh (.inl hm.kind)
  simpa only [bind_assoc, pure_bind] using hrest

/-! ## Suffixes and comparisons -/

theorem Reached.clean_iff (hs : Setting s source e ready clean recur) (hd : s.refusable d = false)
    (h : Reached s.grammar clean (.node (some d) i j cs) o c) :
    (∀ t ∈ c.rest, clean t) ↔ clean (.node (some d) i j cs) := by
  refine ⟨fun hrest => ?_, fun hclean t ht => hs.clean_child hclean (h.mem_children t ht)⟩
  refine hs.clean_node hd (hs.clean_children (t := .node (some d) i j cs) fun t ht => ?_)
  exact (h.before t ht).elim id (hrest t)

/-- A match that begins with a token after which something is known. -/
theorem exists_afterTokens (hs : Setting s source e ready clean recur)
    {p : TokenKind → Outlook δ → Bool} (hd : s.afterTokens p d = true)
    (ht : Opened s.grammar ready (.node (some d) i j cs)) :
    s.refusable d = false ∧ ∃ tk c o,
      (cursor s.grammar (.node (some d) i j cs)).anyToken = pure (tk, c) ∧ p tk.kind o = true ∧
        Reached s.grammar clean (.node (some d) i j cs) o c := by
  rw [Survey.afterTokens, Bool.and_eq_true, Bool.not_eq_true'] at hd
  refine ⟨hd.1, ?_⟩
  have hopening := hs.opening ht
  have hstart : Reached s.grammar clean (.node (some d) i j cs) (s.opening d) _ := .start hopening
  cases hrest : (cursor s.grammar (.node (some d) i j cs)).rest with
  | nil =>
      rw [hrest] at hopening
      exact absurd (List.all_eq_true.mp hd.2 none hopening) (by simp)
  | cons t rest =>
      rw [hrest] at hopening
      obtain ⟨k, hmem, -⟩ := id hopening
      have hhead := List.all_eq_true.mp hd.2 _ hmem
      cases t with
      | node => cases hhead
      | leaf tk =>
          have hkind : (RawTree.leaf tk : RawTree δ).symbol.isAny [tk.kind] = true := by
            simp [RawTree.symbol, Symbol.isAny]
          refine ⟨tk, _, _, Cursor.anyToken_leaf hrest, hhead, hstart.took ?_ (hs.clean_leaf tk)⟩
          exact ⟨hrest, hkind, hopening.past hkind⟩

theorem does_comparison [DecidableEq δ] (hs : Setting s source e ready clean recur)
    {operator? : TokenKind → Option BinaryOperator} {ts : List (RawTree δ)}
    (hts : ∀ t ∈ ts, ready t ∧ t.symbol.isFormOf (s.isComparison operator?) = true) (span : Span)
    (hn : Fresh f draft.forest n) :
    Does source e (∀ t ∈ ts, clean t) (applyComparisons s.grammar recur operator? ts n span) draft
      fun m draft' => Fresh f draft'.forest m := by
  induction ts generalizing draft n span with
  | nil => exact (Does.pure hn).given (by simp)
  | cons t ts ih =>
      rw [List.forall_mem_cons] at hts ⊢
      obtain ⟨d, i, j, cs, rfl, hd⟩ := exists_of_isFormOf hts.1.2
      have hopened := hs.opened hts.1.1
      obtain ⟨hrefusable, tk, c, o, htoken, hknown, hreached⟩ := hs.exists_afterTokens hd hopened
      simp only [Bool.and_eq_true] at hknown
      obtain ⟨⟨hkind, hmust⟩, hspares⟩ := hknown
      obtain ⟨operand, c', hnode, hready, hform, hclean, hreached'⟩ :=
        hreached.node hs hopened hmust
      rw [applyComparisons]
      refine .after rfl ?_
      rw [htoken, pure_bind]
      dsimp only
      rw [hnode, pure_bind]
      have hoperand : clean operand ↔ clean (.node (some d) i j cs) :=
        ⟨fun h => (hreached' h).finish hs hrefusable hopened hspares, hclean⟩
      refine ((hs.makes hready hform draft).iff hoperand).bind fun _ m draft₁ hm => ?_
      have hpair := FreshAll.pair hn hm
      have hkeyword : ∀ n draft, draft.forest.IsRoot n →
          Steps source e True (setToken n .keyword tk) draft :=
        fun n _ hn => steps_setToken .keyword tk hn
      split
      · exact (does_over hkeyword _ _ _ _ hpair).andThen fun m' draft₂ hm' => ih hts.2 _ hm'.1
      · exact (does_over hkeyword _ _ _ _ hpair).andThen fun m' draft₂ hm' => ih hts.2 _ hm'.1
      · next hnotIs hnotAs =>
          have hoperator : (operator? tk.kind).isSome = true := by
            rw [Bool.or_eq_true, Bool.or_eq_true, beq_iff_eq, beq_iff_eq] at hkind
            exact (hkind.resolve_left fun h => h.elim hnotIs hnotAs)
          rw [if_neg (by rw [← Option.not_isSome, hoperator]; simp)]
          exact (does_binaryNode hoperator _ hpair).andThen fun m' draft₂ hm' => ih hts.2 _ hm'

theorem makes_comparisons [DecidableEq δ] (hs : Setting s source e ready clean recur)
    {operator? : TokenKind → Option BinaryOperator} (hready : Opened s.grammar ready (.node (some d) i j cs))
    (hd : s.refusable d = false)
    (hopening : o.Foresees (cursor s.grammar (.node (some d) i j cs)).rest)
    (ho : s.isRow (s.isComparison operator?) o = true) :
    Makes source e (clean (.node (some d) i j cs))
      (shaped s.grammar recur (.node (some d) i j cs) (.comparisons operator?)) draft := by
  rw [Survey.isRow, Bool.and_eq_true] at ho
  obtain ⟨first, c, hnode, hchild, hform, hclean, hreached⟩ :=
    (Reached.start hopening).node hs hready ho.1
  rw [shaped, hnode, pure_bind]
  refine (hs.makes hchild hform draft).part hclean fun hclean n draft₁ hn => .after rfl ?_
  have hreached := hreached hclean
  refine Does.iff (hs.does_comparison (fun t ht => ?_) _ hn) (hreached.clean_iff hs hd)
  exact ⟨hready.child (hreached.mem_children t ht), hreached.foresees.every ho.2 t ht⟩

theorem applySuffix_eq [BEq δ] {g : Grammar δ} {tk : Token} {kind : NodeKind} {title place : Title}
    {parts : List (Part δ)} (htoken : (cursor g raw).anyToken = pure (tk, c))
    (hplan : Survey.suffixPlan? tk.kind = some (kind, title, place, parts)) (span : Span) :
    applySuffix g recur n raw span = (do
      let m ← allocate kind span
      set m title n
      setToken m place tk
      let _ ← readParts g recur m raw c parts
      return m) := by
  rw [applySuffix, htoken, pure_bind]
  dsimp only
  unfold Survey.suffixPlan? at hplan
  have hdots : (TokenKind.dot == TokenKind.questionDot) = false := by decide
  split at hplan
  case h_7 => cases hplan
  all_goals
    next hkind =>
      cases hplan
      simp [hkind, readParts, hdots]

section Suffixes

variable [DecidableEq δ]

theorem does_suffix (hs : Setting s source e ready clean recur) (hd : s.isSuffix d = true)
    (hready : Opened s.grammar ready (.node (some d) i j cs)) (span : Span) (hn : Fresh f draft.forest n) :
    Does source e (clean (.node (some d) i j cs))
      (applySuffix s.grammar recur n (.node (some d) i j cs) span) draft
      fun m draft' => Fresh f draft'.forest m := by
  obtain ⟨hrefusable, tk, c, o, htoken, hplan, hreached⟩ := hs.exists_afterTokens hd hready
  obtain ⟨⟨kind, title, place, parts⟩, hplan, hfits⟩ := (Option.any_eq_true _ _).mp hplan
  rw [applySuffix_eq htoken hplan]
  have hrest : ∀ m draft₁, Wraps f draft.forest draft₁.forest kind title n m →
      Does source e (clean (.node (some d) i j cs)) (do
        setToken m place tk
        let _ ← readParts s.grammar recur m (.node (some d) i j cs) c parts
        return m) draft₁ fun m draft' => Fresh f draft'.forest m := by
    intro m draft₁ hm
    refine (steps_setToken place tk hm.fresh.root).andThen fun _ draft₂ hgrows => ?_
    have hm := hm.fresh.then_grows hgrows
    exact (hs.steps_readParts hfits hready hrefusable hreached hm.root).finish
      fun _ _ hgrows => .pure (hm.then_grows hgrows)
  simpa only [bind_assoc, pure_bind] using (does_wrap source e hn kind title span).andThen hrest

theorem does_suffixes (hs : Setting s source e ready clean recur) {ts : List (RawTree δ)}
    (hts : ∀ t ∈ ts, ready t ∧ t.symbol.isFormOf s.isSuffix = true) (span : Span)
    (hn : Fresh f draft.forest n) :
    Does source e (∀ t ∈ ts, clean t) (applySuffixes s.grammar recur ts n span) draft
      fun m draft' => Fresh f draft'.forest m := by
  induction ts generalizing draft n span with
  | nil => exact (Does.pure hn).given (by simp)
  | cons t ts ih =>
      rw [List.forall_mem_cons] at hts ⊢
      obtain ⟨d, i, j, cs, rfl, hd⟩ := exists_of_isFormOf hts.1.2
      refine .after rfl ((hs.does_suffix hd (hs.opened hts.1.1) _ hn).bind fun _ m draft₁ hm => ?_)
      exact ih hts.2 _ hm

theorem makes_suffixed (hs : Setting s source e ready clean recur)
    (hready : Opened s.grammar ready (.node (some d) i j cs)) (hd : s.refusable d = false)
    (hopening : o.Foresees (cursor s.grammar (.node (some d) i j cs)).rest)
    (ho : s.isRow s.isSuffix o = true) :
    Makes source e (clean (.node (some d) i j cs))
      (shaped s.grammar recur (.node (some d) i j cs) .suffixed) draft := by
  rw [Survey.isRow, Bool.and_eq_true] at ho
  obtain ⟨first, c, hnode, hchild, hform, hclean, hreached⟩ :=
    (Reached.start hopening).node hs hready ho.1
  rw [shaped, hnode, pure_bind]
  refine (hs.makes hchild hform draft).part hclean fun hclean n draft₁ hn => .after rfl ?_
  have hreached := hreached hclean
  refine Does.iff (hs.does_suffixes (fun t ht => ?_) _ hn) (hreached.clean_iff hs hd)
  exact ⟨hready.child (hreached.mem_children t ht), hreached.foresees.every ho.2 t ht⟩

end Suffixes

end Setting

end DualSyntax.Lowering
