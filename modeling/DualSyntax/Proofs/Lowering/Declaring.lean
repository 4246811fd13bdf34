import DualSyntax.Proofs.Lowering.Survey

/-!
# Declared variables

Type clauses are read apart from the declarators they stand in, and may serve several of them.  If
the definitions that take part are harmless and spell what is asked of them, the variables of a list
of declarators always become nodes.
-/

namespace DualSyntax.Lowering

open Forest Lower

variable {δ : Type}

namespace Survey

variable [DecidableEq δ] (s : Survey δ)

/-- Whether a clause gives a type after its keyword. -/
def spellsClause (d : δ) : Bool :=
  (s.opening d).must (·.isAny [.kwAs]) &&
    (((s.opening d).past (·.isAny [.kwAs])).takeMaybe (·.isAny [.kwNew])).must (·.isFormOf s.lowered)

/-- Whether a clause that creates an object gives a type, and arguments in its parentheses. -/
def spellsCreation (d : δ) : Bool :=
  let o := ((s.opening d).past (·.isAny [.kwAs])).past (·.isAny [.kwNew])
  o.must (·.isFormOf s.lowered) &&
    ((o.past (·.isFormOf s.lowered)).past (·.isAny [.lParen])).must (·.isFormOf s.isList)

/-- The outlook behind the name of a declarator and what gives its type. -/
def pastClause (forms : DeclaratorForms δ) (o : Outlook δ) : Outlook δ :=
  let o := (o.past (·.isFormOf s.lowered)).takeMaybe (·.isForm forms.suffix)
  -- a clause that creates an object is looked for only where no other clause stands
  o.past (·.isForm forms.asType) ++
    (o.without (·.isForm forms.asType)).takeMaybe (·.isForm forms.asNew)

def isDeclarator (forms : DeclaratorForms δ) (d : δ) : Bool :=
  (s.opening d).must (·.isFormOf s.lowered) &&
    ((s.pastClause forms (s.opening d)).takeMaybe (·.isAny [.eq])).narrows (·.isNode)
      (·.isFormOf s.lowered)

/-- Whether the matches of a definition are lists of declarators. -/
def declares (forms : DeclaratorForms δ) (d : δ) : Bool :=
  s.harmless d && s.spellsClause forms.asType && s.spellsClause forms.asNew &&
    s.spellsCreation forms.asNew && s.nests s.isList forms.suffix &&
    s.nests (s.isDeclarator forms) d

end Survey

/-! ## Clauses -/

theorem mem_nextClause {k : Nat} {ds : List (Declarator δ)} {found : Nat × RawTree δ}
    (h : clausesFrom.nextClause k ds = some found) : ∃ x ∈ ds, x.clause = some found.2 := by
  induction ds generalizing k with
  | nil => cases h
  | cons x ds ih =>
      rw [clausesFrom.nextClause] at h
      cases hx : x.clause with
      | some clause =>
          simp only [hx, Option.some.injEq] at h
          subst h
          exact ⟨x, List.mem_cons_self .., hx⟩
      | none =>
          simp only [hx] at h
          obtain ⟨y, hy, hclause⟩ := ih h
          exact ⟨y, List.mem_cons_of_mem x hy, hclause⟩

/-- Every clause that serves a declarator stands in one of them. -/
theorem mem_clausesFrom {k : Nat} {ds : List (Declarator δ)} {found : Nat × RawTree δ}
    (h : some found ∈ clausesFrom k ds) : ∃ x ∈ ds, x.clause = some found.2 := by
  induction ds generalizing k with
  | nil => cases h
  | cons x ds ih =>
      rw [clausesFrom] at h
      rcases List.mem_cons.mp h with h | h
      · cases hx : x.clause with
        | some clause =>
            simp only [hx, Option.some.injEq] at h
            subst h
            exact ⟨x, List.mem_cons_self .., hx⟩
        | none =>
            simp only [hx] at h
            split at h
            · cases h
            · obtain ⟨y, hy, hclause⟩ := mem_nextClause h.symm
              exact ⟨y, List.mem_cons_of_mem x hy, hclause⟩
      · obtain ⟨y, hy, hclause⟩ := ih h
        exact ⟨y, List.mem_cons_of_mem x hy, hclause⟩

namespace Setting

variable {s : Survey δ} {source : Source} {e : LowerError}
  {ready clean : RawTree δ → Prop} {recur : Recur δ} {draft : Draft} {owner n : NodeId}
  {d : δ} {i j : Nat} {cs : List (RawTree δ)} {t : RawTree δ} {forms : DeclaratorForms δ}

theorem exists_clauseType (hs : Setting s source e ready clean recur)
    (ht : Fine ready clean (.node (some d) i j cs)) (hd : s.spellsClause d = true) :
    ∃ u, clauseType s.grammar recur (.node (some d) i j cs) = recur u ∧ Fine ready clean u ∧
      u.symbol.isFormOf s.lowered = true := by
  rw [Survey.spellsClause, Bool.and_eq_true] at hd
  obtain ⟨tk, c, htoken, htook⟩ := Cursor.token_must (hs.opening (hs.opened ht.ready)) hd.1
  have hfine := (fine_took (hs.fine_cursor ht) htook).2
  obtain ⟨t, rest, hrest, hform⟩ :=
    Cursor.took_of_must (Cursor.foresees_eat .kwNew htook.foresees) hd.2
  have hfine := hfine t (Cursor.eat_subset _ _ t (by rw [hrest]; exact List.mem_cons_self ..))
  refine ⟨t, ?_, hfine, hform.holds⟩
  rw [clauseType, htoken, pure_bind]
  dsimp only
  rw [Cursor.node_node hrest (isNode_of_isFormOf _ hform.holds), pure_bind]

theorem makes_clauseType (hs : Setting s source e ready clean recur)
    (ht : Fine ready clean (.node (some d) i j cs)) (hd : s.spellsClause d = true) :
    Makes source e True (clauseType s.grammar recur (.node (some d) i j cs)) draft := by
  obtain ⟨u, htype, hfine, hform⟩ := hs.exists_clauseType ht hd
  rw [htype]
  exact (hs.makes hfine.ready hform draft).always hfine.clean

theorem makes_declaratorType (hs : Setting s source e ready clean recur) (x : Declarator δ)
    (ht : Fine ready clean (.node (some d) i j cs)) (hd : s.spellsClause d = true) :
    Makes source e True (declaratorType s.grammar recur x (.node (some d) i j cs)) draft := by
  refine (hs.makes_clauseType ht hd).andThen fun n draft' hn => ?_
  cases x.suffix with
  | none => exact .pure hn
  | some suffix => exact .after rfl (makes_arrayOf hn suffix _)

theorem does_clauseCreation (hs : Setting s source e ready clean recur)
    (ht : Fine ready clean (.node (some d) i j cs)) (hclause : s.spellsClause d = true)
    (hd : s.spellsCreation d = true) :
    Does source e True (clauseCreation s.grammar recur (.node (some d) i j cs)) draft
      fun r draft' => FreshMaybe draft.forest draft'.forest r := by
  rw [Survey.spellsClause, Bool.and_eq_true] at hclause
  rw [Survey.spellsCreation, Bool.and_eq_true] at hd
  obtain ⟨tk, c, htoken, htook⟩ := Cursor.token_must (hs.opening (hs.opened ht.ready)) hclause.1
  have hfine := (fine_took (hs.fine_cursor ht) htook).2
  rw [clauseCreation, htoken, pure_bind]
  dsimp only
  rcases Cursor.eat_or .kwNew htook.foresees with ⟨kw, c₁, heat, hkw⟩ | ⟨heat, -⟩
  · have hfine := (fine_took hfine hkw).2
    rw [heat]
    dsimp only
    refine .after rfl ((makes_allocate _ _).andThen fun n draft₁ hn => ?_)
    refine (steps_setToken _ _ hn.root).andThen fun _ draft₂ hgrows => ?_
    have hn := hn.then_grows hgrows
    obtain ⟨type, rest, hrest, htype⟩ := Cursor.took_of_must hkw.foresees hd.1
    obtain ⟨hthis, hfine⟩ := fine_took hfine htype
    rw [Cursor.node_node hrest (isNode_of_isFormOf _ htype.holds), pure_bind]
    dsimp only
    refine Makes.attachFinish ((hs.makes hthis.ready htype.holds draft₂).always hthis.clean)
      (attaches_set source n .type) hn.root fun draft₃ hgrows => ?_
    have hn := hn.then_grows hgrows
    rcases Cursor.eat_or .lParen htype.foresees with ⟨paren, c₃, heat, hparen⟩ | ⟨heat, -⟩
    · obtain ⟨arguments, rest', hrest', harguments⟩ := Cursor.took_of_must hparen.foresees hd.2
      obtain ⟨hthis, -⟩ := fine_took (fine_took hfine hparen).2 harguments
      rw [heat]
      dsimp only
      rw [Cursor.node_node hrest' (isNode_of_isFormOf _ harguments.holds), pure_bind]
      obtain ⟨d', i', j', cs', rfl, hlist⟩ := exists_of_isFormOf harguments.holds
      exact hs.does_pushElements hlist hthis hn .arguments
    · rw [heat]
      exact .pure (.some hn)
  · rw [heat]
    exact .pure .none

variable [DecidableEq δ]

/-! ## Declarators -/

structure Declared (s : Survey δ) (ready clean : RawTree δ → Prop) (forms : DeclaratorForms δ)
    (x : Declarator δ) : Prop where
  name : Fine ready clean x.name ∧ x.name.symbol.isFormOf s.lowered = true
  suffix : ∀ t, x.suffix = some t → Fine ready clean t ∧ t.symbol = .node (some forms.suffix)
  clause : ∀ t, x.clause = some t → Fine ready clean t ∧
    (t.symbol = .node (some forms.asType) ∨ t.symbol = .node (some forms.asNew))
  initializer : ∀ t, x.initializer = some t →
    Fine ready clean t ∧ t.symbol.isFormOf s.lowered = true

theorem exists_readDeclarator (hs : Setting s source e ready clean recur)
    (ht : Fine ready clean (.node (some d) i j cs)) (hd : s.isDeclarator forms d = true) :
    ∃ x, readDeclarator s.grammar forms (.node (some d) i j cs) = pure x ∧
      Declared s ready clean forms x := by
  rw [Survey.isDeclarator, Bool.and_eq_true] at hd
  obtain ⟨name, rest, hrest, hname⟩ := Cursor.took_of_must (hs.opening (hs.opened ht.ready)) hd.1
  obtain ⟨hfine, hsub⟩ := fine_took (hs.fine_cursor ht) hname
  rw [readDeclarator, Cursor.node_node hrest (isNode_of_isFormOf _ hname.holds), pure_bind]
  dsimp only
  have hforesees := hname.foresees
  generalize ({ cursor s.grammar (.node (some d) i j cs) with rest } : Cursor δ) = c
    at hsub hforesees
  have hsub₁ : ∀ t ∈ (c.eatForm forms.suffix).2.rest, Fine ready clean t :=
    fun t hmem => hsub t (Cursor.eatForm_subset _ _ t hmem)
  have hsub₂ : ∀ t ∈ ((c.eatForm forms.suffix).2.eatForm forms.asType).2.rest,
      Fine ready clean t :=
    fun t hmem => hsub₁ t (Cursor.eatForm_subset _ _ t hmem)
  have hforesees₁ := Cursor.foresees_eatForm forms.suffix hforesees
  refine ⟨_, rfl, ⟨⟨hfine, hname.holds⟩, ?_, ?_, ?_⟩⟩
  · intro t h
    obtain ⟨hmem, hsymbol⟩ := Cursor.mem_of_eatForm h
    exact ⟨hsub t hmem, hsymbol⟩
  · intro t h
    dsimp only at h
    cases hasType : ((c.eatForm forms.suffix).2.eatForm forms.asType).1 with
    | some u =>
        simp only [hasType, Option.some.injEq] at h
        subst h
        obtain ⟨hmem, hsymbol⟩ := Cursor.mem_of_eatForm hasType
        exact ⟨hsub₁ u hmem, .inl hsymbol⟩
    | none =>
        simp only [hasType] at h
        obtain ⟨hmem, hsymbol⟩ := Cursor.mem_of_eatForm h
        exact ⟨hsub₂ t hmem, .inr hsymbol⟩
  · intro t h
    dsimp only at h
    -- the cursor behind the clause, whichever clause stands there
    have hclause : ∀ c' : Cursor δ, (∀ t ∈ c'.rest, Fine ready clean t) →
        (s.pastClause forms (s.opening d)).Foresees c'.rest →
        (c'.eat .eq).2.eatNode.1 = some t →
        Fine ready clean t ∧ t.symbol.isFormOf s.lowered = true := by
      intro c' hsub' hforesees' h
      have heat := Cursor.foresees_eat .eq hforesees'
      rcases Cursor.eatNode_or heat with ⟨u, c'', hnode, htook⟩ | ⟨hnode, -⟩
      · rw [hnode] at h
        cases h
        have hmem : t ∈ (c'.eat .eq).2.rest := by
          rw [htook.rest]
          exact List.mem_cons_self ..
        exact ⟨hsub' t (Cursor.eat_subset _ _ t hmem), htook.narrows heat hd.2⟩
      · rw [hnode] at h
        cases h
    rcases Cursor.eatForm_or forms.asType hforesees₁ with ⟨u, c', heat, htook⟩ | ⟨heat, hwithout⟩
    · rw [heat] at h hsub₂
      exact hclause c' hsub₂ (htook.foresees.mono (List.subset_append_left _ _)) h
    · rw [heat] at h hsub₂
      refine hclause _ (fun t hmem => hsub₂ t (Cursor.eatForm_subset _ _ t hmem)) ?_ h
      exact (Cursor.foresees_eatForm forms.asNew hwithout).mono (List.subset_append_right _ _)

theorem exists_mapM_readDeclarator (hs : Setting s source e ready clean recur)
    (hd : s.declares forms d = true) (ht : Fine ready clean (.node (some d) i j cs)) :
    ∃ xs, (((RawTree.node (some d) i j cs).listItems s.grammar).1.filter (·.token?.isNone)).mapM
        (readDeclarator s.grammar forms) = pure xs ∧ (∀ x ∈ xs, Declared s ready clean forms x) ∧
      xs.length = (((RawTree.node (some d) i j cs).listItems s.grammar).1.filter
        (·.token?.isNone)).length := by
  rw [Survey.declares, Bool.and_eq_true] at hd
  have hitems : ∀ c ∈ ((RawTree.node (some d) i j cs).listItems s.grammar).1.filter
      (·.token?.isNone), ∃ x, readDeclarator s.grammar forms c = pure x ∧
        Declared s ready clean forms x := by
    intro c hc
    obtain ⟨hitem, hnone⟩ := List.mem_filter.mp hc
    have hmem : c ∈ cs := mem_children_of_mem_items hitem
    have hnode : c.symbol.isNode = true := by
      cases c with
      | leaf => cases hnone
      | node => rfl
    obtain ⟨d', i', j', cs', rfl, hd'⟩ := hs.form_of_nests hd.2 ht.ready hmem hnode
    exact hs.exists_readDeclarator ⟨hs.child ht.ready hmem, hs.clean_child ht.clean hmem⟩ hd'
  generalize ((RawTree.node (some d) i j cs).listItems s.grammar).1.filter (·.token?.isNone) = ts
    at hitems
  induction ts with
  | nil => exact ⟨[], rfl, by simp, rfl⟩
  | cons c ts ih =>
      rw [List.forall_mem_cons] at hitems
      obtain ⟨x, hx, hdeclared⟩ := hitems.1
      obtain ⟨xs, hxs, hall, hlength⟩ := ih hitems.2
      exact ⟨x :: xs, by simp [hx, hxs], List.forall_mem_cons.mpr ⟨hdeclared, hall⟩,
        congrArg Nat.succ hlength⟩

structure Clause (s : Survey δ) (ready clean : RawTree δ → Prop) (t : RawTree δ) : Prop where
  fine : Fine ready clean t
  spells : ∃ d i j cs, t = .node (some d) i j cs ∧ s.spellsClause d = true

theorem does_declaratorValue (hs : Setting s source e ready clean recur)
    (hforms : s.spellsClause forms.asNew = true ∧ s.spellsCreation forms.asNew = true ∧
      s.nests s.isList forms.suffix = true)
    {x : Declarator δ} (hx : Declared s ready clean forms x) {clause : Option (RawTree δ)}
    (hclause : ∀ t ∈ clause, Clause s ready clean t) (ho : draft.forest.IsRoot n) :
    Does source e True (declaratorValue s.grammar recur forms n x clause) draft
      fun r draft' => FreshMaybe draft.forest draft'.forest r := by
  unfold declaratorValue
  cases hinit : x.initializer with
  | some raw =>
      obtain ⟨hfine, hform⟩ := hx.initializer raw hinit
      have hvalue : ∀ draft₁ : Draft, Grows draft.forest draft₁.forest →
          Does source e True (do return some (← recur raw)) draft₁ fun r draft' =>
            FreshMaybe draft.forest draft'.forest r := by
        intro draft₁ hgrows
        refine ((hs.makes hfine.ready hform draft₁).always hfine.clean).andThen
          fun m draft₂ hm => ?_
        exact .pure (.some (hm.after_grows hgrows))
      dsimp only
      cases x.assign with
      | none => exact hvalue draft (Keeps.refl _ _)
      | some tk =>
          exact (steps_setToken _ _ ho).andThen fun _ draft₁ hgrows => hvalue draft₁ hgrows
  | none =>
      dsimp only
      split
      · next own hown =>
          obtain ⟨hsome, hform⟩ := Option.filter_eq_some_iff.mp hown
          have hfine := (hx.clause own hsome).1
          rw [Cursor.isForm_eq] at hform
          obtain ⟨i, j, cs, rfl⟩ := exists_of_isForm hform
          exact hs.does_clauseCreation hfine hforms.1 hforms.2.1
      · next suffix _ hsuffix =>
          split
          · next sizes given hsizes =>
              obtain ⟨hget, hnone⟩ := Option.filter_eq_some_iff.mp hsizes
              obtain ⟨hfine, hform⟩ := hx.suffix suffix hsuffix
              have hmem := List.mem_of_getElem? hget
              have hsizesFine : Fine ready clean sizes :=
                ⟨hs.child hfine.ready hmem, hs.clean_child hfine.clean hmem⟩
              obtain ⟨i', j', cs', rfl⟩ := exists_of_isForm (decide_eq_true hform)
              have hnode : sizes.symbol.isNode = true := by
                cases sizes with
                | leaf => cases hnone
                | node => rfl
              obtain ⟨d', i', j', cs', rfl, hlist⟩ :=
                hs.form_of_nests hforms.2.2 hfine.ready hmem hnode
              obtain ⟨hgiven, d, i, j, cs, rfl, hspells⟩ := hclause given rfl
              refine .after rfl ((makes_allocate _ _).andThen fun m draft₁ hm => ?_)
              refine Makes.attachFinish (hs.makes_clauseType hgiven hspells)
                (attaches_set source m .type) hm.root fun draft₂ hgrows => ?_
              exact hs.does_pushElements hlist hsizesFine (hm.then_grows hgrows) .arguments
          · exact .pure .none
      · exact .pure .none

theorem clause_of_mem
    (hforms : s.spellsClause forms.asType = true ∧ s.spellsClause forms.asNew = true)
    {ds : List (Declarator δ)} (hds : ∀ x ∈ ds, Declared s ready clean forms x)
    {found : Option (Nat × RawTree δ)} (hfound : found ∈ clausesFrom 0 ds) :
    ∀ t ∈ found.map (·.2), Clause s ready clean t := by
  intro t ht
  obtain ⟨pair, rfl, rfl⟩ := Option.map_eq_some_iff.mp ht
  obtain ⟨x, hx, hclause⟩ := mem_clausesFrom hfound
  obtain ⟨hfine, hform | hform⟩ := (hds x hx).clause _ hclause
  · obtain ⟨i, j, cs, heq⟩ := exists_of_isForm (decide_eq_true hform)
    exact ⟨hfine, _, i, j, cs, heq, hforms.1⟩
  · obtain ⟨i, j, cs, heq⟩ := exists_of_isForm (decide_eq_true hform)
    exact ⟨hfine, _, i, j, cs, heq, hforms.2⟩

/-- A declarator with the clause that serves it becomes a variable of its declaration. -/
theorem does_declarator (hs : Setting s source e ready clean recur)
    (hforms : s.spellsClause forms.asNew = true ∧ s.spellsCreation forms.asNew = true ∧
      s.nests s.isList forms.suffix = true)
    {x : Declarator δ} (hx : Declared s ready clean forms x) {clause : Option (RawTree δ)}
    (hclause : ∀ t ∈ clause, Clause s ready clean t) (shared : Bool)
    (ho : draft.forest.IsRoot owner) :
    Does source e True (do
      let n ← Lower.allocate .variableDeclarator (← spanOf x.raw)
      Lower.set n .identifier (← recur x.name)
      if !shared then
        if let some clause := clause then
          Lower.set n .type (← declaratorType s.grammar recur x clause)
      if let some value ← declaratorValue s.grammar recur forms n x clause then
        Lower.set n .initializer value
      Lower.push owner .declarators n
      return ForInStep.yield PUnit.unit) draft fun r draft' =>
        r = .yield ⟨⟩ ∧ Grows draft.forest draft'.forest := by
  refine .after rfl ((makes_allocate _ _).andThen fun n draft₁ hn => ?_)
  obtain ⟨hname, hform⟩ := hx.name
  refine Makes.attachFinish ((hs.makes hname.ready hform draft₁).always hname.clean)
    (attaches_set source n .identifier) hn.root fun draft₂ hgrows => ?_
  have hn := hn.then_grows hgrows
  -- what remains once the type has been read, if it belongs to the declarator
  have hrest : ∀ draft₃ : Draft, Fresh draft.forest draft₃.forest n → Does source e True (do
      if let some value ← declaratorValue s.grammar recur forms n x clause then
        Lower.set n .initializer value
      Lower.push owner .declarators n
      return ForInStep.yield PUnit.unit) draft₃ fun r draft' =>
        r = .yield ⟨⟩ ∧ Grows draft.forest draft'.forest := by
    intro draft₃ hn
    have hpush : ∀ draft₄ : Draft, Fresh draft.forest draft₄.forest n → Does source e True (do
        Lower.push owner .declarators n
        return ForInStep.yield PUnit.unit) draft₄ fun r draft' =>
          r = .yield ⟨⟩ ∧ Grows draft.forest draft'.forest := by
      intro draft₄ hn
      exact ((attaches_push source owner .declarators).does_fresh ho hn).andThen
        fun _ _ hgrows => .pure ⟨rfl, hgrows⟩
    refine (hs.does_declaratorValue hforms hx hclause hn.root).andThen fun r draft₄ hr => ?_
    cases r with
    | none => exact hpush draft₄ (hn.then_grows hr.grows)
    | some value =>
        have hvalue := hr.fresh value rfl
        obtain ⟨draft₅, hset, hfresh, -⟩ := (attaches_set source n .initializer).fresh
          (hn.then_grows hr.grows) hvalue.root
          (Nat.le_trans hn.grows.size_le hvalue.new) (hvalue.ne hn.root)
        exact .after hset (hpush draft₅ hfresh)
  cases shared with
  | true => exact hrest draft₂ hn
  | false =>
      cases clause with
      | none => exact hrest draft₂ hn
      | some t =>
          obtain ⟨hfine, d, i, j, cs, rfl, hspells⟩ := hclause t rfl
          refine Makes.attachFinish (hs.makes_declaratorType x hfine hspells)
            (attaches_set source n .type) hn.root fun draft₃ hgrows => ?_
          exact hrest draft₃ (hn.then_grows hgrows)

/-- The variables of a list of declarators always become nodes. -/
theorem steps_addDeclarators (hs : Setting s source e ready clean recur)
    (hd : s.declares forms d = true) (ht : Fine ready clean (.node (some d) i j cs))
    (ho : draft.forest.IsRoot owner) :
    Steps source e True (addDeclarators s.grammar recur forms owner (.node (some d) i j cs))
      draft := by
  obtain ⟨ds, hread, hds, -⟩ := hs.exists_mapM_readDeclarator hd ht
  simp only [Survey.declares, Bool.and_eq_true] at hd
  obtain ⟨⟨⟨⟨⟨-, hasType⟩, hasNew⟩, hcreation⟩, hsuffix⟩, -⟩ := hd
  have hclauses : ∀ found ∈ clausesFrom 0 ds, ∀ t ∈ found.map (·.2), Clause s ready clean t :=
    fun found hfound => clause_of_mem ⟨hasType, hasNew⟩ hds hfound
  rw [addDeclarators, hread, pure_bind]
  have hloop : ∀ draft₁ : Draft, Grows draft.forest draft₁.forest →
      Does source e True (do
        for pair in ds.zip (clausesFrom 0 ds) do
          let clause := pair.2.map (·.2)
          let n ← Lower.allocate .variableDeclarator (← spanOf pair.1.raw)
          Lower.set n .identifier (← recur pair.1.name)
          if !(sharesType ds (clausesFrom 0 ds)) then
            if let some clause := clause then
              Lower.set n .type (← declaratorType s.grammar recur pair.1 clause)
          if let some value ← declaratorValue s.grammar recur forms n pair.1 clause then
            Lower.set n .initializer value
          Lower.push owner .declarators n) draft₁ fun _ draft' =>
            Grows draft.forest draft'.forest := by
    intro draft₁ hgrows
    refine (steps_forIn_always (fun pair hmem draft₂ ho => ?_) (ho.of_grows hgrows)).andThen
      fun _ _ h => .pure (hgrows.trans h)
    obtain ⟨x, found⟩ := pair
    obtain ⟨hx, hfound⟩ := List.of_mem_zip hmem
    exact hs.does_declarator ⟨hasNew, hcreation, hsuffix⟩ (hds x hx) (hclauses found hfound) _ ho
  dsimp only
  split
  · split
    · next x _ k clause _ heq =>
        simp only [Prod.mk.injEq] at heq
        have hmem : some (k, clause) ∈ clausesFrom 0 ds := by rw [heq.2]; exact List.mem_cons_self ..
        obtain ⟨hfine, d, i, j, cs, rfl, hspells⟩ := hclauses _ hmem clause rfl
        refine Makes.attachFinish (hs.makes_declaratorType x hfine hspells)
          (attaches_set source owner .type) ho fun draft₁ hgrows => ?_
        exact hloop draft₁ hgrows
    · exact hloop draft (Keeps.refl _ _)
  · exact hloop draft (Keeps.refl _ _)

end Setting

end DualSyntax.Lowering
