import DualSyntax.Proofs.Lowering.InnerParts
import DualSyntax.Proofs.Lowering.Suiting

/-!
# Parts that put nodes where they suit

The variables of declarations, and the parts that the children of a match are read with.
-/

/-!
## Variables with clauses where they suit

A declarator becomes a variable of its declaration; its name, its type and its value, which are plain
nodes, are put below it.  A declaration whose list of declarators has at least one element gets at least
one variable.
-/

namespace DualSyntax.Lowering

open Forest Lower

variable {δ : Type} {s : Sorting δ} {source : Source} {e : LowerError} {T clean : RawTree δ → Prop}
  {recur : Recur δ} {g : Forest} {d : Draft} {owner n : NodeId} {f : δ} {i j : Nat}
  {cs : List (RawTree δ)} {α β : Type} {P Q : β → Forest → Prop}

namespace Sorting

variable (s : Sorting δ)

/-- The survey in which the matches that count are those that become plain nodes. -/
def plainly : Survey δ := { s.toSurvey with lowered := s.isPlain }

theorem plainly_grammar : s.plainly.grammar = s.grammar := rfl

/-- Whether a clause that creates an object spells only arguments that may be put below it. -/
def createsPlainly (d : δ) : Bool :=
  (((((s.opening d).past (·.isAny [.kwAs])).past (·.isAny [.kwNew])).past (·.isFormOf s.isPlain)).past
    (·.isAny [.lParen])).must (·.isFormOf (s.fills .arguments))

/-- Whether the matches of a definition are lists of declarators, at least one, whose names, types and
values become plain nodes. -/
def declares [DecidableEq δ] (forms : DeclaratorForms δ) (d : δ) : Bool :=
  s.plainly.declares forms d && s.isFilled d && s.lists (fun _ => true) d &&
    s.createsPlainly forms.asNew && s.nests (s.fills .arguments) forms.suffix

end Sorting

/-- What is asked of the definitions that take part in a declarator. -/
structure Sorting.Spells (s : Sorting δ) (forms : DeclaratorForms δ) : Prop where
  asType : s.plainly.spellsClause forms.asType = true
  asNew : s.plainly.spellsClause forms.asNew = true
  creation : s.plainly.spellsCreation forms.asNew = true
  creates : s.createsPlainly forms.asNew = true
  sizes : s.nests (s.fills .arguments) forms.suffix = true

theorem Obeys.plainly (hs : Obeys s source e T clean recur) : Setting s.plainly source e T clean recur :=
  { hs.setting with
    does := fun {t} ht hform draft => by
      obtain ⟨f, i, j, cs, rfl, hf⟩ := exists_of_isFormOf hform
      refine hs.setting.does ht (hs.lowered ?_) draft
      rw [show s.yields f = [.other] from beq_iff_eq.mp hf]
      nofun }

theorem suits_arrayOf {grammar : Grammar δ} (hn : d.forest.Sorts [.other] n) (rank : RawTree δ) (span : Span) :
    SuitsNode source d [.other] (arrayOf grammar n rank span) := by
  refine (suits_make (.arrayType (rankOf grammar rank)) rfl span).bind fun m d₁ h₁ hm => ?_
  refine (suits_set (hn.later h₁) rfl).andThen fun _ d₂ h₂ => .pure ?_
  exact Forest.Sorts.later hm h₂

/-- A loop whose rounds all bring about what lasts. -/
theorem suits_forIn_ne_nil {γ : Type} {Q : Forest → Prop} (hQ : ∀ f f', f.Furthers f' → Q f → Q f')
    {round : γ → PUnit → Lower (ForInStep PUnit)} {ts : List γ} (hts : ts ≠ [])
    (h : ∀ t ∈ ts, ∀ d : Draft, Suits source d (fun r f => r = .yield ⟨⟩ ∧ Q f) (round t ⟨⟩)) :
    Suits source d (fun _ f => Q f) (forIn ts PUnit.unit round) := by
  obtain ⟨t, ts, rfl⟩ := List.exists_cons_of_ne_nil hts
  rw [List.forall_mem_cons] at h
  rw [List.forIn_cons]
  refine (h.1 d).bind fun r d₁ _ hr => ?_
  obtain ⟨rfl, hholds⟩ := hr
  intro u d' hd hrun
  obtain ⟨hd', hfurthers, -⟩ := Suits.forIn (fun u hu d₂ _ => (h.2 u hu d₂).step) hd hrun
  exact ⟨hd', hfurthers, hQ _ _ hfurthers hholds⟩

/-! ### Children that may be there -/

def SortsMaybe (sorts : List NodeSort) (r : Option NodeId) (f : Forest) : Prop :=
  ∀ n ∈ r, f.Sorts sorts n

theorem sortsMaybe_some {f : Forest} {sorts : List NodeSort} (hn : f.Sorts sorts n) :
    SortsMaybe sorts (some n) f := by
  rintro m ⟨⟩
  exact hn

theorem sortsMaybe_none {f : Forest} {sorts : List NodeSort} : SortsMaybe sorts none f := nofun

namespace Obeys

variable (hs : Obeys s source e T clean recur)

include hs

/-! ### Clauses -/

theorem suits_clauseType {t : RawTree δ} (ht : Setting.Clause s.plainly T clean t) (d : Draft) :
    SuitsNode source d [.other] (clauseType s.grammar recur t) := by
  obtain ⟨f, i, j, cs, rfl, hf⟩ := ht.spells
  obtain ⟨u, htype, hfine, hform⟩ := hs.plainly.exists_clauseType ht.fine hf
  rw [Sorting.plainly_grammar] at htype
  rw [htype]
  exact hs.plain hfine.ready hform d

theorem suits_declaratorType {t : RawTree δ} (ht : Setting.Clause s.plainly T clean t) (x : Declarator δ)
    (d : Draft) : SuitsNode source d [.other] (declaratorType s.grammar recur x t) := by
  refine (hs.suits_clauseType ht d).bind fun n d₁ h₁ hn => ?_
  split
  · exact .read (suits_arrayOf hn _ _)
  · exact .pure hn

theorem suits_clauseCreation (ht : Setting.Fine T clean (.node (some f) i j cs))
    (hclause : s.plainly.spellsClause f = true) (hcreation : s.plainly.spellsCreation f = true)
    (hcreates : s.createsPlainly f = true) (d : Draft) :
    Suits source d (SortsMaybe [.other]) (clauseCreation s.grammar recur (.node (some f) i j cs)) := by
  rw [Survey.spellsClause, Bool.and_eq_true] at hclause
  rw [Survey.spellsCreation, Bool.and_eq_true] at hcreation
  obtain ⟨tk, c, htoken, htook⟩ :=
    Cursor.token_must (hs.plainly.opening (hs.plainly.opened ht.ready)) hclause.1
  have hfine := (Setting.fine_took (hs.plainly.fine_cursor ht) htook).2
  rw [Sorting.plainly_grammar] at htoken
  rw [clauseCreation, htoken, pure_bind]
  dsimp only
  rcases Cursor.eat_or .kwNew htook.foresees with ⟨kw, c₁, heat, hkw⟩ | ⟨heat, -⟩
  case inr =>
    rw [heat]
    exact .pure sortsMaybe_none
  have hfine := (Setting.fine_took hfine hkw).2
  rw [heat]
  dsimp only
  refine .read ((suits_make .objectCreateExpression rfl _).bind fun n d₁ _ hn => ?_)
  refine (suits_setToken rfl kw).andThen fun _ d₂ h₂ => ?_
  obtain ⟨type, rest, hrest, htype⟩ := Cursor.took_of_must hkw.foresees hcreation.1
  obtain ⟨hthis, hfine⟩ := Setting.fine_took hfine htype
  rw [Cursor.node_node hrest (isNode_of_isFormOf _ htype.holds), pure_bind]
  dsimp only
  refine (hs.plain hthis.ready htype.holds d₂).setThen rfl fun d₃ h₃ => ?_
  have hdone (d₄ : Draft) (h₄ : d₃.forest.Furthers d₄.forest) :
      Suits source d₄ (SortsMaybe [.other]) (pure (some n)) :=
    .pure (sortsMaybe_some (Forest.Sorts.later hn (h₂.trans (h₃.trans h₄))))
  rcases Cursor.eat_or .lParen htype.foresees with ⟨paren, c₃, heat, hparen⟩ | ⟨heat, -⟩
  · obtain ⟨arguments, rest', hrest', harguments⟩ := Cursor.took_of_must hparen.foresees hcreates
    obtain ⟨hthis, -⟩ := Setting.fine_took (Setting.fine_took hfine hparen).2 harguments
    rw [heat]
    dsimp only
    rw [Cursor.node_node hrest' (isNode_of_isFormOf _ harguments.holds), pure_bind]
    exact hs.fillThen hthis.ready harguments.holds fun d₄ h₄ _ => hdone d₄ h₄
  · rw [heat]
    exact hdone d₃ (.refl _)

/-! ### Declarators -/

variable [DecidableEq δ] {forms : DeclaratorForms δ} {x : Declarator δ} {clause : Option (RawTree δ)}

theorem suits_declaratorValue (hforms : s.Spells forms) (hx : Setting.Declared s.plainly T clean forms x)
    (hclause : ∀ t ∈ clause, Setting.Clause s.plainly T clean t) (d : Draft) :
    Suits source d (SortsMaybe [.other]) (declaratorValue s.grammar recur forms n x clause) := by
  unfold declaratorValue
  split
  · next raw hraw =>
      obtain ⟨hfine, hform⟩ := hx.initializer raw hraw
      have hvalue (d₁ : Draft) : Suits source d₁ (SortsMaybe [.other]) (do return some (← recur raw)) :=
        (hs.plain hfine.ready hform d₁).bind fun m d₂ _ hm => .pure (sortsMaybe_some hm)
      dsimp only
      split
      · exact (suits_setToken rfl _).andThen fun _ d₁ _ => hvalue d₁
      · exact hvalue d
  · split
    · next own hown =>
        obtain ⟨hsome, hform⟩ := Option.filter_eq_some_iff.mp hown
        have hfine := (hx.clause own hsome).1
        rw [Cursor.isForm_eq] at hform
        obtain ⟨i, j, cs, rfl⟩ := exists_of_isForm hform
        exact hs.suits_clauseCreation hfine hforms.asNew hforms.creation hforms.creates d
    · next suffix _ hsuffix =>
        split
        · next sizes given hsizes =>
            obtain ⟨hget, hnone⟩ := Option.filter_eq_some_iff.mp hsizes
            obtain ⟨hfine, hform⟩ := hx.suffix suffix hsuffix
            obtain ⟨i, j, cs, rfl⟩ := exists_of_isForm (decide_eq_true hform)
            have hmem := List.mem_of_getElem? hget
            have hnode : sizes.symbol.isNode = true := by
              cases sizes with
              | leaf => cases hnone
              | node => rfl
            obtain ⟨f, i', j', cs', rfl, hfills⟩ :=
              hs.setting.form_of_nests hforms.sizes hfine.ready hmem hnode
            refine .read ((suits_make (.arrayCreateExpression .upperBound) rfl _).bind
              fun m d₁ _ hm => ?_)
            refine (hs.suits_clauseType (hclause given rfl) d₁).setThen rfl fun d₂ h₂ => ?_
            refine hs.fillThen (hs.setting.child hfine.ready hmem) hfills fun d₃ h₃ _ => ?_
            exact .pure (sortsMaybe_some (Forest.Sorts.later hm (h₂.trans h₃)))
        · exact .pure sortsMaybe_none
    · exact .pure sortsMaybe_none

omit hs [DecidableEq δ] in
theorem suits_newVariable (owner : NodeId) (span : Span) :
    Suits source d (fun n f => NewVariable d.forest owner f n) (allocate .variableDeclarator span) := by
  intro n d' hd hrun
  obtain ⟨hd', hfurthers, hsorts⟩ := suits_make .variableDeclarator rfl span hd hrun
  have hfresh := (makes_allocate (e := .tooDeep) .variableDeclarator span).of_run hrun
  refine ⟨hd', hfurthers, hfresh.new, hsorts, fun m _ hmem => ?_⟩
  have hparent := hd'.links.parent_of_mem_children hmem
  rw [hfresh.root.parent] at hparent
  cases hparent

theorem suits_declarator (hforms : s.Spells forms) (hx : Setting.Declared s.plainly T clean forms x)
    (hclause : ∀ t ∈ clause, Setting.Clause s.plainly T clean t) (shared : Bool) (d : Draft) :
    Suits source d (fun r f => r = .yield ⟨⟩ ∧ f.children owner .declarators ≠ []) (do
      let n ← Lower.allocate .variableDeclarator (← spanOf x.raw)
      Lower.set n .identifier (← recur x.name)
      if !shared then
        if let some clause := clause then
          Lower.set n .type (← declaratorType s.grammar recur x clause)
      if let some value ← declaratorValue s.grammar recur forms n x clause then
        Lower.set n .initializer value
      Lower.push owner .declarators n
      return ForInStep.yield PUnit.unit) := by
  refine .read (SuitsSince.suits ((suits_newVariable owner _).bindSince fun n d₁ _ hn => ?_))
  obtain ⟨hname, hform⟩ := hx.name
  refine (hs.plain hname.ready hform d₁).setSince rfl fun d₂ h₂ => ?_
  -- what remains once the type has been read, if it belongs to the declarator
  have hrest (d₃ : Draft) (h₃ : d₁.forest.Furthers d₃.forest) : SuitsSince d.forest source d₃
      (fun r f => r = .yield ⟨⟩ ∧ f.children owner .declarators ≠ []) (do
        if let some value ← declaratorValue s.grammar recur forms n x clause then
          Lower.set n .initializer value
        Lower.push owner .declarators n
        return ForInStep.yield PUnit.unit) := by
    have hpush (d₄ : Draft) (h₄ : d₃.forest.Furthers d₄.forest) : SuitsSince d.forest source d₄
        (fun r f => r = .yield ⟨⟩ ∧ f.children owner .declarators ≠ []) (do
          Lower.push owner .declarators n
          return ForInStep.yield PUnit.unit) :=
      (suits_declare (NewVariable.later hn (h₃.trans h₄))).bind fun _ _ h =>
        (Suits.pure ⟨rfl, h.1⟩).since
    refine (hs.suits_declaratorValue hforms hx hclause d₃).bindSince fun r d₄ h₄ hr => ?_
    cases r with
    | none => exact hpush d₄ h₄
    | some value =>
        exact (suits_set (hr value rfl) rfl).bindSince fun _ d₅ h₅ _ => hpush d₅ (h₄.trans h₅)
  cases shared with
  | true => exact hrest d₂ h₂
  | false =>
      cases clause with
      | none => exact hrest d₂ h₂
      | some t =>
          refine (hs.suits_declaratorType (hclause t rfl) x d₂).setSince rfl fun d₃ h₃ => ?_
          exact hrest d₃ (h₂.trans h₃)

/-- A declaration gets the variables of a list of declarators. -/
theorem suits_addDeclarators (hd : s.declares forms f = true) (ht : T (.node (some f) i j cs)) :
    Suits source d (fun _ f => f.children owner .declarators ≠ [])
      (addDeclarators s.grammar recur forms owner (.node (some f) i j cs)) := by
  simp only [Sorting.declares, Bool.and_eq_true] at hd
  obtain ⟨⟨⟨⟨hdeclares, hfilled⟩, hlists⟩, hcreates⟩, hsizes⟩ := hd
  have hboth := hdeclares
  simp only [Survey.declares, Bool.and_eq_true] at hboth
  obtain ⟨⟨⟨⟨⟨hharmless, hasType⟩, hasNew⟩, hcreation⟩, -⟩, -⟩ := hboth
  have hforms : s.Spells forms := ⟨hasType, hasNew, hcreation, hcreates, hsizes⟩
  obtain ⟨ds, hread, hds, hlength⟩ := hs.plainly.exists_mapM_readDeclarator hdeclares
    ⟨ht, hs.plainly.clean_of_spares ht hharmless⟩
  have hclauses (found : Option (Nat × RawTree δ)) (hfound : found ∈ clausesFrom 0 ds) :
      ∀ t ∈ found.map (·.2), Setting.Clause s.plainly T clean t :=
    Setting.clause_of_mem ⟨hasType, hasNew⟩ hds hfound
  have hpairs : ds.zip (clausesFrom 0 ds) ≠ [] := by
    have hitems := Setting.items_ne_nil_of_isFilled hfilled (hs.setting.conforms ht)
    have hfilter : (((RawTree.node (some f) i j cs).listItems s.grammar).1.filter
        (·.token?.isNone)).length = ((RawTree.node (some f) i j cs).listItems s.grammar).1.length := by
      rw [List.filter_eq_self.mpr fun c hc => ?_]
      obtain ⟨f', i', j', cs', rfl, -⟩ := exists_of_isFormOf (items hlists (hs.setting.opened ht) c hc).2
      rfl
    have hne : ds ≠ [] := by
      rintro rfl
      exact hitems (List.length_eq_zero_iff.mp (hfilter.symm.trans hlength.symm))
    obtain ⟨x, ds, rfl⟩ := List.exists_cons_of_ne_nil hne
    rw [clausesFrom, List.zip_cons_cons]
    exact List.cons_ne_nil _ _
  rw [Sorting.plainly_grammar] at hread
  rw [addDeclarators, hread, pure_bind]
  have hloop (d₁ : Draft) : Suits source d₁ (fun _ f => f.children owner .declarators ≠ []) (do
      for pair in ds.zip (clausesFrom 0 ds) do
        let clause := pair.2.map (·.2)
        let n ← Lower.allocate .variableDeclarator (← spanOf pair.1.raw)
        Lower.set n .identifier (← recur pair.1.name)
        if !(sharesType ds (clausesFrom 0 ds)) then
          if let some clause := clause then
            Lower.set n .type (← declaratorType s.grammar recur pair.1 clause)
        if let some value ← declaratorValue s.grammar recur forms n pair.1 clause then
          Lower.set n .initializer value
        Lower.push owner .declarators n) := by
    refine (suits_forIn_ne_nil (fun f f' h => h.declarators_ne_nil) hpairs fun pair hmem d₂ => ?_).bind
      fun _ d₂ _ h => .pure h
    obtain ⟨x, found⟩ := pair
    obtain ⟨hx, hfound⟩ := List.of_mem_zip hmem
    exact hs.suits_declarator hforms (hds x hx) (hclauses found hfound) _ d₂
  dsimp only
  split
  · split
    · next x _ k clause _ heq =>
        simp only [Prod.mk.injEq] at heq
        have hmem : some (k, clause) ∈ clausesFrom 0 ds := by
          rw [heq.2]
          exact List.mem_cons_self
        exact (hs.suits_declaratorType (hclauses _ hmem clause rfl) x d).setThen rfl fun d₁ _ => hloop d₁
    · exact hloop d
  · exact hloop d

end Obeys

end DualSyntax.Lowering

/-!
## Parts that put nodes where they suit

The children of a match are read with an outlook on what may come next.  Where every match that a part
can meet becomes a node that suits the part's title, the part puts nodes only where they suit, and a part
that spells the variables of a declaration gives it at least one.
-/

namespace DualSyntax

def Part.declares {δ : Type} : Part δ → Bool
  | .list t => t == .declarators
  | .declarators .. => true
  | _ => false

namespace Lowering

open Forest Lower

variable {δ : Type}

namespace Sorting

variable [DecidableEq δ] (s : Sorting δ)

mutual

/-- The outlook after a part of a match of `d` has been read; `none` if it may put a node where it does
not suit. -/
def partAfter (d : δ) : Part δ → Outlook δ → Option (Outlook δ)
  | .keep k t, o | .close k t, o => if t.isLexical then o.take (·.isAny [k]) else none
  | .keepMaybe k t, o => if t.isLexical then some (o.takeMaybe (·.isAny [k])) else none
  | .keepAny t, o => if t.isLexical then o.take (·.isToken) else none
  | .drop k, o => o.take (·.isAny [k])
  | .dropMaybe k, o | .needless k, o | .modifierMaybe k, o => some (o.takeMaybe (·.isAny [k]))
  | .dropAny, o => o.take (·.isToken)
  | .node t, o | .body t, o | .resultType t, o => o.take (·.isFormOf (s.goes t))
  | .nodeMaybe t, o => o.takeOnly (·.isNode) (·.isFormOf (s.goes t))
  | .formMaybe f t, o => o.takeOnly (·.isForm f) (·.isFormOf (s.goes t))
  | .nodes t, o => o.takeAll (·.isNode) (·.isFormOf (s.goes t))
  | .forms f t, o => o.takeAll (·.isForm f) (·.isFormOf (s.goes t))
  | .accessors f, o => o.takeAll (·.isForm f) (·.isFormOf fun f => s.yields f == [.accessor])
  | .everything t, _ => if s.fillsWhole t d then some [none] else none
  | .list t, o => o.take (·.isFormOf (s.fills t))
  | .objectDefault _ t, o => if t.welcomes [.other] then some o else none
  | .impliedAccessors _, o | .commentsAfter, o => some o
  | .given k kept parts, o => do
    let inner ← partsAfter d parts (o.past (·.isAny [k]))
    if kept.all Title.isLexical then some (inner ++ o.without (·.isAny [k])) else none
  | .within f parts, o =>
    if (partsAfter f parts (s.opening f)).isSome then some (o.takeMaybe (·.isForm f)) else none
  | .withinAll f parts, o =>
    if (partsAfter f parts (s.opening f)).isSome then o.takeAll (·.isForm f) (·.isForm f) else none
  | .modifiers, o | .propertyModifiers, o => o.take (·.isNode)
  | .typeMembers name, o =>
    if s.isPlain name then o.takeAll (·.isNode) (·.isFormOf (s.goes .members)) else none
  | .headerItems f t, o =>
    if t.welcomes [.other] then
      o.takeOnly (·.isNode) (·.isFormOf fun f' => if f' = f then s.goes t f' else s.lists s.isPlain f')
    else none
  | .declarators suffix asType asNew, o =>
    o.take (·.isFormOf (s.declares ⟨suffix, asType, asNew⟩))
  | .elements _, _ | .ownModifiers, _ => none

def partsAfter (d : δ) : List (Part δ) → Outlook δ → Option (Outlook δ)
  | [], o => some o
  | p :: ps, o => do partsAfter d ps (← partAfter d p o)

end

end Sorting

theorem narrows_true (o : Outlook δ) (p : Symbol δ → Bool) : o.narrows p (fun _ => true) = true := by
  refine List.all_eq_true.mpr fun x _ => ?_
  rcases x with _ | ⟨a, k⟩ <;> simp

/-! ### Cursors with an outlook -/

structure Sees (T : RawTree δ → Prop) (o : Outlook δ) (c : Cursor δ) : Prop where
  foresees : o.Foresees c.rest
  inside : c.In T

namespace Sees

variable {T : RawTree δ → Prop} {o o' : Outlook δ} {c c' : Cursor δ} {t : RawTree δ} {k : TokenKind}
  {p : δ → Bool}

theorem mono (h : Sees T o c) (hsub : o ⊆ o') : Sees T o' c := ⟨h.foresees.mono hsub, h.inside⟩

theorem took {q : Symbol δ → Bool} (h : Sees T o c) (htook : Took q o c t c') :
    T t ∧ Sees T (o.past q) c' := by
  have hin := h.inside
  rw [Cursor.In, htook.rest, List.forall_mem_cons] at hin
  exact ⟨hin.1, htook.foresees, hin.2⟩

theorem token (h : Sees T o c) (ho' : o.take (·.isAny [k]) = some o') :
    ∃ tk c', c.token k = pure (tk, c') ∧ Sees T o' c' := by
  obtain ⟨hmust, rfl⟩ := Outlook.take_eq_some.mp ho'
  obtain ⟨tk, c', htoken, htook⟩ := Cursor.token_must h.foresees hmust
  exact ⟨tk, c', htoken, (h.took htook).2⟩

theorem anyToken (h : Sees T o c) (ho' : o.take (·.isToken) = some o') :
    ∃ tk c', c.anyToken = pure (tk, c') ∧ Sees T o' c' := by
  obtain ⟨hmust, rfl⟩ := Outlook.take_eq_some.mp ho'
  obtain ⟨tk, c', htoken, htook⟩ := Cursor.anyToken_must h.foresees hmust
  exact ⟨tk, c', htoken, (h.took htook).2⟩

theorem tokens {ks : List TokenKind} (h : Sees T o c)
    (ho' : ks.foldlM (fun o k => Outlook.take o (·.isAny [k])) o = some o') :
    ∃ c', ks.foldlM (fun c k => do return (← Cursor.token c k).2) c = (pure c' : Lower (Cursor δ)) ∧
      Sees T o' c' := by
  induction ks generalizing o c with
  | nil =>
      cases ho'
      exact ⟨c, rfl, h⟩
  | cons k ks ih =>
      rw [List.foldlM_cons] at ho'
      obtain ⟨o₁, ho₁, ho'⟩ := Option.bind_eq_some_iff.mp ho'
      obtain ⟨tk, c₁, htoken, h₁⟩ := h.token ho₁
      obtain ⟨c', hc', h'⟩ := ih h₁ ho'
      refine ⟨c', ?_, h'⟩
      rw [List.foldlM_cons, htoken, ← hc']
      simp

theorem node {q : Symbol δ → Bool} (hq : ∀ a, q a = true → a.isNode = true) (h : Sees T o c)
    (ho' : o.take q = some o') :
    ∃ t c', c.node = pure (t, c') ∧ T t ∧ q t.symbol = true ∧ Sees T o' c' := by
  obtain ⟨hmust, rfl⟩ := Outlook.take_eq_some.mp ho'
  obtain ⟨t, rest, hrest, htook⟩ := Cursor.took_of_must h.foresees hmust
  obtain ⟨ht, hc⟩ := h.took htook
  exact ⟨t, _, Cursor.node_node hrest (hq _ htook.holds), ht, htook.holds, hc⟩

theorem form (h : Sees T o c) (ho' : o.take (·.isFormOf p) = some o') :
    ∃ t c', c.node = pure (t, c') ∧ T t ∧ t.symbol.isFormOf p = true ∧ Sees T o' c' :=
  h.node (fun _ => isNode_of_isFormOf _) ho'

theorem eatAny (h : Sees T o c) (ks : List TokenKind) :
    (∃ tk c', c.eatAny ks = (some tk, c') ∧ Sees T (o.past (·.isAny ks)) c') ∨
      c.eatAny ks = (none, c) ∧ Sees T (o.without (·.isAny ks)) c := by
  rcases Cursor.eatAny_or ks h.foresees with ⟨tk, c', heat, htook⟩ | ⟨heat, hwithout⟩
  · exact .inl ⟨tk, c', heat, (h.took htook).2⟩
  · exact .inr ⟨heat, hwithout, h.inside⟩

theorem eat (h : Sees T o c) (k : TokenKind) : Sees T (o.takeMaybe (·.isAny [k])) (c.eat k).2 :=
  ⟨Cursor.foresees_eat k h.foresees, h.inside.eat k⟩

/-- The next child is a match with a property, or no match. -/
theorem nodeMaybe (h : Sees T o c) (ho' : o.takeOnly (·.isNode) (·.isFormOf p) = some o') :
    ∃ found c', c.eatNode = (found, c') ∧ (∀ t ∈ found, T t ∧ t.symbol.isFormOf p = true) ∧
      Sees T o' c' := by
  obtain ⟨hnarrows, rfl⟩ := Outlook.takeOnly_eq_some.mp ho'
  rcases Cursor.eatNode_or h.foresees with ⟨t, c', heat, htook⟩ | ⟨heat, hwithout⟩
  · obtain ⟨ht, hc⟩ := h.took htook
    refine ⟨some t, c', heat, ?_, hc.mono (List.subset_append_left _ _)⟩
    rintro u ⟨⟩
    exact ⟨ht, htook.narrows h.foresees hnarrows⟩
  · exact ⟨none, c, heat, nofun, hwithout.mono (List.subset_append_right _ _), h.inside⟩

variable [DecidableEq δ] {f : δ}

/-- The next child is a match of a form, which has a property, or it is not of the form. -/
theorem formMaybe {q : Symbol δ → Bool} (h : Sees T o c) (ho' : o.takeOnly (·.isForm f) q = some o') :
    ∃ found c', c.eatForm f = (found, c') ∧
      (∀ t ∈ found, T t ∧ t.symbol.isForm f = true ∧ q t.symbol = true) ∧ Sees T o' c' := by
  obtain ⟨hnarrows, rfl⟩ := Outlook.takeOnly_eq_some.mp ho'
  rcases Cursor.eatForm_or f h.foresees with ⟨t, c', heat, htook⟩ | ⟨heat, hwithout⟩
  · obtain ⟨ht, hc⟩ := h.took htook
    refine ⟨some t, c', heat, ?_, hc.mono (List.subset_append_left _ _)⟩
    rintro u ⟨⟩
    exact ⟨ht, htook.holds, htook.narrows h.foresees hnarrows⟩
  · exact ⟨none, c, heat, nofun, hwithout.mono (List.subset_append_right _ _), h.inside⟩

/-- The next child may be a match of a form. -/
theorem eatForm (h : Sees T o c) (f : δ) : ∃ found c', c.eatForm f = (found, c') ∧
    (∀ t ∈ found, T t ∧ t.symbol.isForm f = true) ∧ Sees T (o.takeMaybe (·.isForm f)) c' := by
  rcases Cursor.eatForm_or f h.foresees with ⟨t, c', heat, htook⟩ | ⟨heat, hwithout⟩
  · obtain ⟨ht, hc⟩ := h.took htook
    refine ⟨some t, c', heat, ?_, hc.mono (List.subset_append_left _ _)⟩
    rintro u ⟨⟩
    exact ⟨ht, htook.holds⟩
  · exact ⟨none, c, heat, nofun, hwithout.mono (List.subset_append_right _ _), h.inside⟩

theorem nodes (h : Sees T o c) (ho' : o.takeAll (·.isNode) (·.isFormOf p) = some o') :
    (∀ t ∈ (c.takeNodes none).1, T t ∧ t.symbol.isFormOf p = true) ∧ Sees T o' (c.takeNodes none).2 := by
  obtain ⟨hall, hforesees⟩ := h.foresees.takeAll ho'
  have hin := h.inside.takeNodes none
  rw [Cursor.takeNodes_none] at hin ⊢
  exact ⟨fun t ht => ⟨hin.1 t ht, hall t ht⟩, hforesees, hin.2⟩

theorem forms {q : Symbol δ → Bool} (h : Sees T o c) (ho' : o.takeAll (·.isForm f) q = some o') :
    (∀ t ∈ (c.takeNodes (some f)).1, T t ∧ q t.symbol = true) ∧
      Sees T o' (c.takeNodes (some f)).2 := by
  obtain ⟨hall, hforesees⟩ := h.foresees.takeAll ho'
  have hin := h.inside.takeNodes (some f)
  rw [Cursor.takeNodes_some] at hin ⊢
  exact ⟨fun t ht => ⟨hin.1 t ht, hall t ht⟩, hforesees, hin.2⟩

end Sees

/-! ### Nested matches -/

variable {s : Sorting δ} {source : Source} {e : LowerError} {T clean : RawTree δ → Prop}
  {recur : Recur δ} {d : Draft} {owner n : NodeId} {t : RawTree δ} {title : Title} {f : δ} {i j : Nat}
  {cs : List (RawTree δ)} {c : Cursor δ} {o o' : Outlook δ} {β : Type} {Q : β → Forest → Prop}
  {next : Lower β}

theorem suits_setAccessor (hn : d.forest.Sorts [.accessor] n) :
    SuitsStep source d (setAccessor owner n) := by
  refine .inspect fun _ => ?_
  split
  · exact suits_set hn rfl
  · exact suits_set hn rfl

theorem suits_addModifiers (drop : Modifier → Bool) (owner : NodeId) (raw : RawTree δ) :
    SuitsStep source d (addModifiers drop owner raw) := by
  refine .foldlM fun dropped tk _ d₁ _ => (suits_modifier tk).bind fun n d₂ _ hn => .inspect fun _ => ?_
  split
  · split
    · exact .pure trivial
    · exact (suits_push hn rfl).andThen fun _ _ _ => .pure trivial
  · exact .pure trivial

namespace Obeys

variable (hs : Obeys s source e T clean recur)

include hs

theorem sees_opening (ht : T (.node (some f) i j cs)) :
    Sees T (s.opening f) (cursor s.grammar (.node (some f) i j cs)) :=
  ⟨hs.setting.opening (hs.setting.opened ht),
    fun _ hu => hs.setting.child ht (mem_children_of_mem_cursor hu)⟩

theorem setThen (ht : T t) (hform : t.symbol.isFormOf (s.goes title) = true)
    (hnext : ∀ d₁ : Draft, d.forest.Furthers d₁.forest → Suits source d₁ Q next) :
    Suits source d Q (do set owner title (← recur t); next) := by
  obtain ⟨sorts, hwelcomes, hmakes⟩ := hs.goes ht hform d
  exact hmakes.setThen hwelcomes hnext

theorem pushThen (ht : T t) (hform : t.symbol.isFormOf (s.goes title) = true)
    (hnext : ∀ d₁ : Draft, d.forest.Furthers d₁.forest → Suits source d₁ Q next) :
    Suits source d Q (do push owner title (← recur t); next) := by
  obtain ⟨sorts, hwelcomes, hmakes⟩ := hs.goes ht hform d
  exact hmakes.pushThen hwelcomes hnext

/-- Matches are put under a title one after the other. -/
theorem pushAllThen {ts : List (RawTree δ)}
    (hts : ∀ t ∈ ts, T t ∧ t.symbol.isFormOf (s.goes title) = true)
    (hnext : ∀ d₁ : Draft, d.forest.Furthers d₁.forest → Suits source d₁ Q next) :
    Suits source d Q (do
      for t in ts do push owner title (← recur t)
      next) := by
  refine (Suits.forIn fun t ht d₁ _ => ?_).andThen fun _ d₁ h₁ => hnext d₁ h₁
  exact hs.pushThen (hts t ht).1 (hts t ht).2 fun _ _ => .pure trivial

theorem pushChildrenThen (hf : s.fillsWhole title f = true)
    (ht : Opened s.grammar T (.node (some f) i j cs))
    (hnext : ∀ d₁ : Draft, d.forest.Furthers d₁.forest → Suits source d₁ Q next) :
    Suits source d Q (do
      for t in (RawTree.node (some f) i j cs).children do push owner title (← child recur t)
      next) := by
  have hform (u : RawTree δ) (hu : u ∈ cs) : u.symbol.isFormOf (s.goes title) = true := by
    cases ht.conforms with
    | node hrule hspells _ =>
        simp only [Sorting.fillsWhole, hrule, Option.any_some] at hf
        exact hspells.every (by simp [Rule.everyAll, hf]) _ (List.mem_map_of_mem hu)
  refine (Suits.forIn fun u hu d₁ _ => ?_).andThen fun _ d₁ h₁ => hnext d₁ h₁
  rw [child_of_isFormOf (hform u hu)]
  exact hs.pushThen (ht.child hu) (hform u hu) fun _ _ => .pure trivial

theorem suits_expressionStatements (hf : s.lists s.isPlain f = true) (ht : T (.node (some f) i j cs)) :
    Suits source d (fun ns f => ∀ n ∈ ns, f.Sorts [.other] n)
      (expressionStatements s.grammar recur (.node (some f) i j cs)) := by
  refine (Suits.mapM (fun n f f' hf hn => hn.later hf) fun c hc d₁ _ => ?_).imp fun _ _ h => h.2
  obtain ⟨hT, hform⟩ := items hf (hs.setting.opened ht) c hc
  rw [child_of_isFormOf hform]
  refine (hs.plain hT hform d₁).bind fun m d₂ _ hm => .read ?_
  refine (suits_make .expressionStatement rfl _).bind fun n d₃ h₃ hn => ?_
  exact (suits_set (Forest.Sorts.later hm h₃) rfl).andThen fun _ d₄ h₄ =>
    .pure (Forest.Sorts.later hn h₄)

theorem suits_addMember {name : Option (RawTree δ)}
    (hname : ∀ u ∈ name, T u ∧ u.symbol.isFormOf s.isPlain = true) (ht : T t)
    (hform : t.symbol.isFormOf (s.goes .members) = true) :
    SuitsStep source d (addMember recur owner name t) := by
  obtain ⟨sorts, hwelcomes, hmakes⟩ := hs.goes ht hform d
  refine hmakes.bind fun n d₁ _ hn => .inspect fun _ => ?_
  have hpush (d₂ : Draft) (h₂ : d₁.forest.Furthers d₂.forest) :
      SuitsStep source d₂ (push owner .members n) :=
    suits_push (Forest.Sorts.later hn h₂) hwelcomes
  split
  · split
    · next name =>
        obtain ⟨hT, hplain⟩ := hname name rfl
        exact (hs.plain hT hplain d₁).setThen rfl hpush
    · exact hpush d₁ (.refl _)
  · exact hpush d₁ (.refl _)

end Obeys

/-! ### Parts -/

/-- What is known once children have been read: the cursor behind them, and that the declaration got a
variable if they spell one. -/
def ReadOn (T : RawTree δ → Prop) (o : Outlook δ) (owner : NodeId) (declares : Bool) (c : Cursor δ)
    (f : Forest) : Prop :=
  Sees T o c ∧ (declares = true → f.children owner .declarators ≠ [])

/-- Children have been read that spell no variable. -/
theorem suits_readOn (hc : Sees T o c) : Suits source d (ReadOn T o owner false) (pure c) :=
  .pure ⟨hc, nofun⟩

variable [DecidableEq δ]

mutual

theorem suits_readPart (hs : Obeys s source e T clean recur) :
    ∀ (p : Part δ) {f : δ} {i j : Nat} {cs : List (RawTree δ)} {o o' : Outlook δ} {c : Cursor δ}
      {d : Draft}, s.partAfter f p o = some o' →
      Opened s.grammar T (.node (some f) i j cs) → Sees T o c →
      Suits source d (ReadOn T o' owner p.declares)
        (readPart s.grammar recur owner (.node (some f) i j cs) c p)
  | .keep k t, f, i, j, cs, o, o', c, d, ho', ht, hc => by
      rw [Sorting.partAfter, Option.ite_none_right_eq_some] at ho'
      obtain ⟨tk, c', htoken, hc'⟩ := hc.token ho'.2
      rw [readPart, htoken, pure_bind]
      exact (suits_setToken ho'.1 tk).andThen fun _ _ _ => suits_readOn hc'
  | .keepMaybe k t, f, i, j, cs, o, o', c, d, ho', ht, hc => by
      rw [Sorting.partAfter, Option.ite_none_right_eq_some] at ho'
      obtain ⟨hlexical, ⟨⟩⟩ := ho'
      have heat := hc.eat k
      rw [readPart]
      match c.eat k, heat with
      | (some tk, c'), heat => exact (suits_setToken hlexical tk).andThen fun _ _ _ => suits_readOn heat
      | (none, c'), heat => exact suits_readOn heat
  | .keepAny t, f, i, j, cs, o, o', c, d, ho', ht, hc => by
      rw [Sorting.partAfter, Option.ite_none_right_eq_some] at ho'
      obtain ⟨tk, c', htoken, hc'⟩ := hc.anyToken ho'.2
      rw [readPart, htoken, pure_bind]
      exact (suits_setToken ho'.1 tk).andThen fun _ _ _ => suits_readOn hc'
  | .close k t, f, i, j, cs, o, o', c, d, ho', ht, hc => by
      rw [Sorting.partAfter, Option.ite_none_right_eq_some] at ho'
      obtain ⟨tk, c', htoken, hc'⟩ := hc.token ho'.2
      rw [readPart, htoken, pure_bind]
      refine (suits_attachTrailing owner tk.leading).andThen fun _ d₁ _ => ?_
      exact (suits_setToken ho'.1 tk).andThen fun _ _ _ => suits_readOn hc'
  | .drop k, f, i, j, cs, o, o', c, d, ho', ht, hc => by
      rw [Sorting.partAfter] at ho'
      obtain ⟨tk, c', htoken, hc'⟩ := hc.token ho'
      rw [readPart, htoken, pure_bind]
      exact suits_readOn hc'
  | .dropMaybe k, f, i, j, cs, o, o', c, d, ho', ht, hc => by
      rw [Sorting.partAfter] at ho'
      cases ho'
      rw [readPart]
      exact suits_readOn (hc.eat k)
  | .dropAny, f, i, j, cs, o, o', c, d, ho', ht, hc => by
      rw [Sorting.partAfter] at ho'
      obtain ⟨tk, c', htoken, hc'⟩ := hc.anyToken ho'
      rw [readPart, htoken, pure_bind]
      exact suits_readOn hc'
  | .needless k, f, i, j, cs, o, o', c, d, ho', ht, hc => by
      rw [Sorting.partAfter] at ho'
      cases ho'
      have heat := hc.eat k
      rw [readPart]
      match c.eat k, heat with
      | (some tk, c'), heat => exact (suits_report _ _).andThen fun _ _ _ => suits_readOn heat
      | (none, c'), heat => exact suits_readOn heat
  | .node t, f, i, j, cs, o, o', c, d, ho', ht, hc => by
      rw [Sorting.partAfter] at ho'
      obtain ⟨u, c', hnode, hu, hform, hc'⟩ := hc.form ho'
      rw [readPart, hnode, pure_bind]
      exact hs.setThen hu hform fun _ _ => suits_readOn hc'
  | .nodeMaybe t, f, i, j, cs, o, o', c, d, ho', ht, hc => by
      rw [Sorting.partAfter] at ho'
      obtain ⟨found, c', heat, hfound, hc'⟩ := hc.nodeMaybe ho'
      rw [readPart, heat]
      cases found with
      | none => exact suits_readOn hc'
      | some u => exact hs.setThen (hfound u rfl).1 (hfound u rfl).2 fun _ _ => suits_readOn hc'
  | .formMaybe g t, f, i, j, cs, o, o', c, d, ho', ht, hc => by
      rw [Sorting.partAfter] at ho'
      obtain ⟨found, c', heat, hfound, hc'⟩ := hc.formMaybe ho'
      rw [readPart, heat]
      cases found with
      | none => exact suits_readOn hc'
      | some u => exact hs.setThen (hfound u rfl).1 (hfound u rfl).2.2 fun _ _ => suits_readOn hc'
  | .nodes t, f, i, j, cs, o, o', c, d, ho', ht, hc => by
      rw [Sorting.partAfter] at ho'
      obtain ⟨hfound, hrest⟩ := hc.nodes ho'
      rw [readPart]
      exact hs.pushAllThen hfound fun _ _ => suits_readOn hrest
  | .forms g t, f, i, j, cs, o, o', c, d, ho', ht, hc => by
      rw [Sorting.partAfter] at ho'
      obtain ⟨hfound, hrest⟩ := hc.forms ho'
      rw [readPart]
      exact hs.pushAllThen hfound fun _ _ => suits_readOn hrest
  | .everything t, f, i, j, cs, o, o', c, d, ho', ht, hc => by
      rw [Sorting.partAfter, Option.ite_none_right_eq_some] at ho'
      obtain ⟨hfills, ⟨⟩⟩ := ho'
      rw [readPart]
      refine hs.pushChildrenThen hfills ht fun _ _ => suits_readOn ⟨?_, nofun⟩
      exact List.mem_singleton_self _
  | .list t, f, i, j, cs, o, o', c, d, ho', ht, hc => by
      rw [Sorting.partAfter] at ho'
      obtain ⟨u, c', hnode, hu, hform, hc'⟩ := hc.form ho'
      rw [readPart, hnode, pure_bind]
      refine hs.fillThen hu hform fun _ _ hvariables => .pure ⟨hc', fun hdeclares => ?_⟩
      exact hvariables (beq_iff_eq.mp hdeclares)
  | .body t, f, i, j, cs, o, o', c, d, ho', ht, hc => by
      rw [Sorting.partAfter] at ho'
      obtain ⟨u, c', hnode, hu, hform, hc'⟩ := hc.form ho'
      rw [readPart, hnode, pure_bind]
      have hset (d₁ : Draft) : Suits source d₁ (ReadOn T o' owner false) (do
          set owner t (← recur u)
          return c') := hs.setThen hu hform fun _ _ => suits_readOn hc'
      dsimp only
      split
      · exact .read ((suits_report _ _).andThen fun _ d₁ _ => hset d₁)
      · exact hset d
  | .resultType t, f, i, j, cs, o, o', c, d, ho', ht, hc => by
      rw [Sorting.partAfter] at ho'
      obtain ⟨u, c', hnode, hu, hform, hc'⟩ := hc.form ho'
      rw [readPart, hnode, pure_bind]
      dsimp only
      split
      · exact hs.setThen hu hform fun _ _ => suits_readOn hc'
      · exact suits_readOn hc'
  | .objectDefault k t, f, i, j, cs, o, o', c, d, ho', ht, hc => by
      rw [Sorting.partAfter, Option.ite_none_right_eq_some] at ho'
      obtain ⟨hwelcomes, ⟨⟩⟩ := ho'
      rw [readPart]
      refine .inspect fun _ => ?_
      split
      · split
        · exact (suits_make (.primitiveType .object) rfl _).setThen hwelcomes fun _ _ => suits_readOn hc
        · exact suits_readOn hc
      · exact suits_readOn hc
  | .given k kept parts, f, i, j, cs, o, o', c, d, ho', ht, hc => by
      rw [Sorting.partAfter] at ho'
      obtain ⟨inner, hinner, ho'⟩ := Option.bind_eq_some_iff.mp ho'
      rw [Option.ite_none_right_eq_some] at ho'
      obtain ⟨hlexical, ⟨⟩⟩ := ho'
      rw [readPart]
      rcases hc.eatAny [k] with ⟨tk, c', heat, hc'⟩ | ⟨heat, hc'⟩
      · have hparts (d₁ : Draft) := (suits_readParts hs parts hinner ht hc' (d := d₁)).imp
          fun c f h => (⟨h.1.mono (List.subset_append_left _ _), nofun⟩ :
            ReadOn T (inner ++ o.without (·.isAny [k])) owner false c f)
        rw [Cursor.eat, heat]
        cases kept with
        | none => exact hparts d
        | some t => exact (suits_setToken hlexical tk).andThen fun _ d₁ _ => hparts d₁
      · rw [Cursor.eat, heat]
        exact suits_readOn (hc'.mono (List.subset_append_right _ _))
  | .within g parts, f, i, j, cs, o, o', c, d, ho', ht, hc => by
      rw [Sorting.partAfter, Option.ite_none_right_eq_some] at ho'
      obtain ⟨hinner, ho'⟩ := ho'
      obtain ⟨inner, hinner⟩ := Option.isSome_iff_exists.mp hinner
      obtain ⟨found, c', heat, hfound, hc'⟩ := hc.formMaybe (f := g) (q := fun _ => true)
        (Outlook.takeOnly_eq_some.mpr ⟨narrows_true o _, Option.some_inj.mp ho'⟩)
      rw [readPart, heat]
      cases found with
      | none => exact suits_readOn hc'
      | some u =>
          obtain ⟨hu, hform, -⟩ := hfound u rfl
          obtain ⟨i', j', cs', rfl⟩ := exists_of_isForm hform
          exact (suits_readParts hs parts hinner (hs.setting.opened hu) (hs.sees_opening hu)).step.andThen
            fun _ _ _ => suits_readOn hc'
  | .withinAll g parts, f, i, j, cs, o, o', c, d, ho', ht, hc => by
      rw [Sorting.partAfter, Option.ite_none_right_eq_some] at ho'
      obtain ⟨hinner, ho'⟩ := ho'
      obtain ⟨inner, hinner⟩ := Option.isSome_iff_exists.mp hinner
      obtain ⟨hfound, hrest⟩ := hc.forms ho'
      rw [readPart]
      refine (Suits.forIn fun u hu d₁ _ => ?_).andThen fun _ _ _ => suits_readOn hrest
      obtain ⟨hu, hform⟩ := hfound u hu
      obtain ⟨i', j', cs', rfl⟩ := exists_of_isForm hform
      exact (suits_readParts hs parts hinner (hs.setting.opened hu) (hs.sees_opening hu)).step.andThen
        fun _ _ _ => .pure trivial
  | .modifiers, f, i, j, cs, o, o', c, d, ho', ht, hc => by
      rw [Sorting.partAfter] at ho'
      obtain ⟨u, c', hnode, -, -, hc'⟩ := hc.node (fun _ h => h) ho'
      rw [readPart, hnode, pure_bind]
      exact (suits_addModifiers _ owner u).andThen fun _ _ _ => suits_readOn hc'
  | .propertyModifiers, f, i, j, cs, o, o', c, d, ho', ht, hc => by
      rw [Sorting.partAfter] at ho'
      obtain ⟨u, c', hnode, -, -, hc'⟩ := hc.node (fun _ h => h) ho'
      rw [readPart, hnode, pure_bind]
      exact (suits_addModifiers _ owner u).andThen fun _ _ _ => suits_readOn hc'
  | .modifierMaybe k, f, i, j, cs, o, o', c, d, ho', ht, hc => by
      rw [Sorting.partAfter] at ho'
      cases ho'
      have heat := hc.eat k
      rw [readPart]
      match c.eat k, heat with
      | (some tk, c'), heat => exact (suits_modifier tk).pushThen rfl fun _ _ => suits_readOn heat
      | (none, c'), heat => exact suits_readOn heat
  | .impliedAccessors k, f, i, j, cs, o, o', c, d, ho', ht, hc => by
      rw [Sorting.partAfter] at ho'
      cases ho'
      rw [readPart]
      have hsetter (tk : Token) (d₁ : Draft) : Suits source d₁ (ReadOn T o owner false) (do
          set owner .setter (← allocate (.accessor .set) tk.span)
          return c) :=
        (suits_make (.accessor .set) rfl tk.span).setThen rfl fun _ _ => suits_readOn hc
      dsimp only
      split
      · split
        · refine (suits_make (.accessor .get) rfl _).setThen rfl fun d₁ _ => ?_
          split
          · exact hsetter _ d₁
          · exact suits_readOn hc
        · split
          · exact hsetter _ d
          · exact suits_readOn hc
      · exact suits_readOn hc
  | .accessors g, f, i, j, cs, o, o', c, d, ho', ht, hc => by
      rw [Sorting.partAfter] at ho'
      obtain ⟨hfound, hrest⟩ := hc.forms ho'
      rw [readPart]
      refine (Suits.forIn fun u hu d₁ _ => ?_).andThen fun _ _ _ => suits_readOn hrest
      obtain ⟨hu, hform⟩ := hfound u hu
      refine (hs.yielding hu hform d₁).bind fun n d₂ _ hn => ?_
      exact (suits_setAccessor hn).andThen fun _ _ _ => .pure trivial
  | .typeMembers name, f, i, j, cs, o, o', c, d, ho', ht, hc => by
      rw [Sorting.partAfter, Option.ite_none_right_eq_some] at ho'
      obtain ⟨hplain, ho'⟩ := ho'
      obtain ⟨hfound, hrest⟩ := hc.nodes ho'
      rw [readPart]
      refine (Suits.forIn fun u hu d₁ _ => ?_).andThen fun _ _ _ => suits_readOn hrest
      obtain ⟨hu, hform⟩ := hfound u hu
      refine (hs.suits_addMember (fun v hv => ?_) hu hform).andThen fun _ _ _ => .pure trivial
      have hname := List.find?_some hv
      rw [Cursor.isForm_eq] at hname
      have hv := ht.child (List.mem_of_find?_eq_some hv)
      obtain ⟨i', j', cs', rfl⟩ := exists_of_isForm hname
      exact ⟨hv, hplain⟩
  | .headerItems g t, f, i, j, cs, o, o', c, d, ho', ht, hc => by
      rw [Sorting.partAfter, Option.ite_none_right_eq_some] at ho'
      obtain ⟨hwelcomes, ho'⟩ := ho'
      obtain ⟨found, c', heat, hfound, hc'⟩ := hc.nodeMaybe ho'
      rw [readPart, heat]
      cases found with
      | none => exact suits_readOn hc'
      | some u =>
          obtain ⟨hu, hform⟩ := hfound u rfl
          obtain ⟨f', i', j', cs', rfl, hf'⟩ := exists_of_isFormOf hform
          dsimp only
          by_cases hg : f' = g
          · rw [if_pos hg] at hf'
            rw [if_pos (by simp [RawTree.isForm, hg])]
            exact hs.pushThen hu hf' fun _ _ => suits_readOn hc'
          · rw [if_neg hg] at hf'
            rw [if_neg (by simp [RawTree.isForm, Ne.symm hg])]
            refine (hs.suits_expressionStatements hf' hu).bind fun ns d₁ _ hns => ?_
            refine (Suits.forM fun n hn d₂ h₂ => ?_).andThen fun _ _ _ => suits_readOn hc'
            exact suits_push ((hns n hn).later h₂) hwelcomes
  | .declarators suffix asType asNew, f, i, j, cs, o, o', c, d, ho', ht, hc => by
      rw [Sorting.partAfter] at ho'
      obtain ⟨u, c', hnode, hu, hform, hc'⟩ := hc.form ho'
      obtain ⟨f', i', j', cs', rfl, hf'⟩ := exists_of_isFormOf hform
      rw [readPart, hnode, pure_bind]
      exact (hs.suits_addDeclarators hf' hu).bind fun _ d₁ _ h => .pure ⟨hc', fun _ => h⟩
  | .commentsAfter, f, i, j, cs, o, o', c, d, ho', ht, hc => by
      rw [Sorting.partAfter] at ho'
      cases ho'
      rw [readPart]
      exact .read ((suits_attachTrailing owner _).andThen fun _ _ _ => suits_readOn hc)
  | .elements t, f, i, j, cs, o, o', c, d, ho', ht, hc => by
      rw [Sorting.partAfter] at ho'
      cases ho'
  | .ownModifiers, f, i, j, cs, o, o', c, d, ho', ht, hc => by
      rw [Sorting.partAfter] at ho'
      cases ho'

theorem suits_readParts (hs : Obeys s source e T clean recur) :
    ∀ (ps : List (Part δ)) {f : δ} {i j : Nat} {cs : List (RawTree δ)} {o o' : Outlook δ}
      {c : Cursor δ} {d : Draft}, s.partsAfter f ps o = some o' →
      Opened s.grammar T (.node (some f) i j cs) → Sees T o c →
        Suits source d (ReadOn T o' owner (ps.any Part.declares))
        (readParts s.grammar recur owner (.node (some f) i j cs) c ps)
  | [], f, i, j, cs, o, o', c, d, ho', ht, hc => by
      rw [Sorting.partsAfter] at ho'
      cases ho'
      rw [readParts]
      exact suits_readOn hc
  | p :: ps, f, i, j, cs, o, o', c, d, ho', ht, hc => by
      rw [Sorting.partsAfter] at ho'
      obtain ⟨o₁, ho₁, ho'⟩ := Option.bind_eq_some_iff.mp ho'
      rw [readParts]
      refine (suits_readPart hs p ho₁ ht hc).bind fun c₁ d₁ h₁ hc₁ => ?_
      intro c₂ d₂ hd₁ hrun
      obtain ⟨hd₂, h₂, hc₂⟩ := suits_readParts hs ps ho' ht hc₁.1 hd₁ hrun
      refine ⟨hd₂, h₂, hc₂.1, fun hany => ?_⟩
      rw [List.any_cons, Bool.or_eq_true] at hany
      exact hany.elim (fun hp => h₂.declarators_ne_nil (hc₁.2 hp)) hc₂.2

end

end Lowering

end DualSyntax
