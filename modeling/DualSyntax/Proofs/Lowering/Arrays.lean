import DualSyntax.Proofs.Lowering.Chaining

/-!
# Array types and array creations

The stars and ranks after a type go around it from the inside out, so that the last of them tells
what the type is.  An array creation whose initializer gives the size takes the outermost rank of its
type for itself, and is refused if that is not a rank of one dimension.
-/

namespace DualSyntax.Lowering

open Forest Lower

variable {δ : Type}

namespace Survey

variable (s : Survey δ)

/-- Whether something that becomes a node comes first and then only what is harmless. -/
def isRanked (o : Outlook δ) : Bool :=
  o.must (·.isFormOf s.lowered) && (o.past (·.isFormOf s.lowered)).every s.spares

def pastSizes (o : Outlook δ) : Option (Outlook δ) := do
  let o ← o.take (·.isAny [.kwNew])
  let o ← o.take (·.isFormOf s.lowered)
  let o ← o.take (·.isToken)
  let o ← o.take (·.isFormOf s.isList)
  o.take (·.isToken)

/-- Whether the children of a match are those of an array creation with sizes. -/
def isSized [DecidableEq δ] (rank : δ) (o : Outlook δ) : Bool :=
  s.harmless rank && s.leaves (do
    let o ← s.pastSizes o
    let o ← o.takeAll (·.isForm rank) (·.isForm rank)
    o.takeOnly (·.isNode) (·.isFormOf s.lowered))

/-- Whether the children of a match are a keyword, a type and an initializer. -/
def isListed (types : δ → Bool) (o : Outlook δ) : Bool :=
  s.leaves (do
    let o ← o.take (·.isAny [.kwNew])
    let o ← o.take (·.isFormOf types)
    o.take (·.isFormOf s.lowered))

end Survey

namespace Setting

variable {s : Survey δ} {source : Source} {e : LowerError} {ready clean : RawTree δ → Prop}
  {recur : Recur δ} {draft : Draft} {f : Forest} {d : δ} {i j : Nat}
  {cs : List (RawTree δ)} {o o' : Outlook δ} {c : Cursor δ} {raw t : RawTree δ} {n : NodeId}

/-! ## Array types -/

/-- What a type is around which a star or a rank has been put last. -/
def Outermost (g : Grammar δ) (f f' : Forest) (n : NodeId) : RawTree δ → Prop
  | .leaf _ => f'.kind n = .pointerType
  | rank => f'.kind n = .arrayType (rankOf g rank) ∧
      ∃ element, f'.child? n .type = some element ∧ f.size ≤ element ∧ element < n

theorem does_wrapType (g : Grammar δ) (ts : List (RawTree δ)) (span : Span)
    (hn : Fresh f draft.forest n) :
    Does source e True (wrapType g ts n span) draft fun m draft' =>
      Fresh f draft'.forest m ∧ (ts = [] → m = n ∧ draft' = draft) ∧
        ∀ last ∈ ts.getLast?, Outermost g f draft'.forest m last := by
  induction ts generalizing draft n span with
  | nil => exact .pure ⟨hn, fun _ => ⟨rfl, rfl⟩, by simp⟩
  | cons t ts ih =>
      -- the rest goes around a node that shows the star or the rank
      have hrest : ∀ m (draft₁ : Draft), Fresh f draft₁.forest m →
          Outermost g f draft₁.forest m t → Does source e True
            (wrapType g ts m (span.cover (t.span source.stream))) draft₁ fun m' draft' =>
              Fresh f draft'.forest m' ∧ (t :: ts = [] → m' = n ∧ draft' = draft) ∧
                ∀ last ∈ (t :: ts).getLast?, Outermost g f draft'.forest m' last := by
        intro m draft₁ hm hshows
        refine (ih _ hm).imp fun m' draft' h => ⟨h.1, by simp, ?_⟩
        cases ts with
        | nil =>
            obtain ⟨rfl, rfl⟩ := h.2.1 rfl
            simpa using hshows
        | cons u us => simpa using h.2.2
      refine .after rfl ?_
      cases t with
      | leaf tk =>
          have hwrap := (does_wrap source e hn .pointerType .type
            (span.cover ((RawTree.leaf tk : RawTree δ).span source.stream))).andThen fun m draft₁ hm =>
            hrest m draft₁ hm.fresh hm.kind
          simpa only [bind_assoc, pure_bind] using hwrap
      | node form i j cs =>
          refine (does_wrap source e hn _ .type _).andThen fun m draft₁ hm => ?_
          exact hrest m draft₁ hm.fresh ⟨hm.kind, n, hm.child, hn.new, hm.lt⟩

theorem does_rankedType [DecidableEq δ] (hs : Setting s source e ready clean recur)
    (hready : Opened s.grammar ready (.node (some d) i j cs)) (hd : s.refusable d = false)
    (hopening : o.Foresees (cursor s.grammar (.node (some d) i j cs)).rest)
    (ho : s.isRanked o = true) (draft : Draft) :
    ∃ first rest, (cursor s.grammar (.node (some d) i j cs)).rest = first :: rest ∧
      first.symbol.isFormOf s.lowered = true ∧
      Does source e (clean (.node (some d) i j cs))
        (shaped s.grammar recur (.node (some d) i j cs) .rankedType) draft fun n draft' =>
          Fresh draft.forest draft'.forest n ∧
            (rest = [] → s.shows first draft.forest draft'.forest n) ∧
            ∀ last ∈ rest.getLast?, Outermost s.grammar draft.forest draft'.forest n last := by
  rw [Survey.isRanked, Bool.and_eq_true] at ho
  obtain ⟨first, rest, hrest, htook⟩ := Cursor.took_of_must hopening ho.1
  have hmem := mem_children_of_mem_cursor htook.mem
  refine ⟨first, rest, hrest, htook.holds, ?_⟩
  rw [shaped, Cursor.node_node hrest (isNode_of_isFormOf _ htook.holds), pure_bind]
  refine (hs.does (hready.child hmem) htook.holds draft).part (fun h => hs.clean_child h hmem)
    fun hclean n draft₁ hn => .after rfl ?_
  have hwhole : clean (.node (some d) i j cs) :=
    ((Reached.start hopening).took htook hclean).finish hs hd hready ho.2
  refine ((does_wrapType s.grammar rest _ hn.1).imp fun m draft₂ hm => ?_).given hwhole
  refine ⟨hm.1, fun hnil => ?_, hm.2.2⟩
  obtain ⟨rfl, rfl⟩ := hm.2.1 hnil
  exact hn.2

/-! ## Creations with sizes -/

theorem does_wrapRanks (g : Grammar δ) (ranks : List (RawTree δ)) (hn : Fresh f draft.forest n) :
    Does source e True (wrapRanks g ranks n) draft fun m draft' =>
      Fresh f draft'.forest m ∧ Keeps (· ≠ n) draft.forest draft'.forest ∧
        (m = n ∨ draft.forest.size ≤ m) := by
  induction ranks generalizing draft n with
  | nil => exact .pure ⟨hn, Keeps.refl _ _, .inl rfl⟩
  | cons rank ranks ih =>
      refine .after rfl ((does_wrap source e hn _ .type _).andThen fun m draft₁ hm => ?_)
      refine (ih hm.fresh).imp fun m' draft₂ h => ⟨h.1, ?_, ?_⟩
      · refine hm.keeps.andThen h.2.1 fun k hk _ => ?_
        rintro rfl
        exact Nat.not_lt.mpr hm.new hk
      · rcases h.2.2 with rfl | hle
        · exact .inr hm.new
        · exact .inr (Nat.le_trans hm.keeps.size_le hle)

variable [DecidableEq δ]

theorem Reached.takeAll {p q : Symbol δ → Bool} (h : Reached s.grammar clean raw o c)
    (ho' : o.takeAll p q = some o') (hclean : ∀ t ∈ c.rest.takeWhile (p ·.symbol), clean t) :
    Reached s.grammar clean raw o' { c with rest := c.rest.dropWhile (p ·.symbol) } where
  foresees := (h.foresees.takeAll ho').2
  subset t ht := h.subset t ((List.dropWhile_sublist _).subset ht)
  before t ht := by
    rcases h.before t ht with ht | ht
    · exact .inl ht
    · rw [← List.takeWhile_append_dropWhile (p := fun t : RawTree δ => p t.symbol) (l := c.rest),
        List.mem_append] at ht
      exact ht.imp_left (hclean t)

/-- What an array creation with sizes does once its node, its element type and its sizes are made. -/
theorem does_finishSized (hs : Setting s source e ready clean recur)
    (hready : Opened s.grammar ready (.node (some d) i j cs)) (hd : s.refusable d = false)
    {rank : δ} (hrank : s.harmless rank = true)
    (hfits : s.leaves (do
      let o ← o.takeAll (·.isForm rank) (·.isForm rank)
      o.takeOnly (·.isNode) (·.isFormOf s.lowered)) = true)
    (hc : Reached s.grammar clean (.node (some d) i j cs) o c) {type : NodeId}
    {arguments : List NodeId} (hn : Fresh f draft.forest n)
    (hmade : FreshAll f draft.forest (type :: arguments)) (hne : n ∉ type :: arguments) :
    Does source e (clean (.node (some d) i j cs)) (do
      pushAll n .arguments arguments
      let (ranks, c) := c.takeNodes (some rank)
      set n .type (← wrapRanks s.grammar ranks type)
      if let (some init, _) := c.eatNode then set n .initializer (← recur init)
      return n) draft fun n draft' => Fresh f draft'.forest n := by
  obtain ⟨o₂, hafter, hspares⟩ := (Option.any_eq_true _ _).mp hfits
  obtain ⟨o₁, ho₁, hafter⟩ := Option.bind_eq_some_iff.mp hafter
  obtain ⟨hnarrows, rfl⟩ := Outlook.takeOnly_eq_some.mp hafter
  rw [List.mem_cons, not_or] at hne
  have hnodup := List.nodup_cons.mp hmade.nodup
  -- the sizes go below the node; the element type stays a root
  have harguments : FreshAll f draft.forest (arguments.map id) := by
    rw [List.map_id]
    exact ⟨hmade.grows, fun m hm => hmade.root m (List.mem_cons_of_mem _ hm),
      fun m hm => hmade.new m (List.mem_cons_of_mem _ hm), hnodup.2⟩
  have hplaces : ∀ m ∈ arguments, ∃ place, Attaches source n place ∧
      push n .arguments m = place (id m) :=
    fun m _ => ⟨push n .arguments, attaches_push source n .arguments, rfl⟩
  have hpush := steps_forM_puts (e := e) hplaces hn.root (by simpa using hne.2) harguments
  refine hpush.andThen fun _ draft₁ hpushed => ?_
  rw [List.map_id] at hpushed
  have hn₁ : Fresh f draft₁.forest n := ⟨hpushed.1, hpushed.2.root n hne.2 hn.root, hn.new⟩
  have htype : Fresh f draft₁.forest type :=
    ⟨hpushed.1, hpushed.2.root type hnodup.1 (hmade.root type (List.mem_cons_self ..)),
      hmade.new type (List.mem_cons_self ..)⟩
  -- the ranks are harmless
  rw [Cursor.takeNodes_some]
  dsimp only
  have hranks : ∀ t ∈ c.rest.takeWhile (·.symbol.isForm rank), clean t := by
    intro t ht
    have hform : t.symbol.isForm rank = true := List.all_eq_true.mp List.all_takeWhile t ht
    have hmem := hc.mem_children t ((List.takeWhile_sublist _).subset ht)
    obtain ⟨i', j', cs', rfl⟩ := exists_of_isForm hform
    exact hs.clean_of_spares (hready.child hmem) hrank
  have hc₁ := hc.takeAll ho₁ hranks
  refine (does_wrapRanks s.grammar _ htype).andThen fun m draft₂ hm => ?_
  have hn₂ : Fresh f draft₂.forest n := ⟨hm.1.grows, hm.2.1.root n hne.1 hn₁.root, hn.new⟩
  have hmn : m ≠ n := by
    rcases hm.2.2 with rfl | hle
    · exact fun h => hne.1 h.symm
    · rintro rfl
      exact Nat.not_lt.mpr hle hn₁.root.lt
  obtain ⟨draft₃, hset, hn₃, -⟩ := (attaches_set source n .type).fresh hn₂ hm.1.root hm.1.new hmn
  refine .after hset ?_
  -- the initializer, if there is one
  rcases Cursor.eatNode_or hc₁.foresees with ⟨init, c', heat, htook⟩ | ⟨heat, hwithout⟩
  · rw [heat]
    have hmem := hc₁.mem_children init htook.mem
    have hform := htook.narrows hc₁.foresees hnarrows
    refine (hs.makes (hready.child hmem) hform draft₃).part (fun h => hs.clean_child h hmem)
      fun hclean init' draft₄ hinit => ?_
    have hwhole := ((hc₁.took htook hclean).mono (List.subset_append_left _ _)).finish hs hd hready
      hspares
    have hn₄ := hn₃.then_grows hinit.grows
    obtain ⟨draft₅, hset, hn₅, -⟩ := (attaches_set source n .initializer).fresh hn₄ hinit.root
      (Nat.le_trans hn₃.grows.size_le hinit.new) (hinit.ne hn₃.root)
    exact .after hset ((Does.pure hn₅).given hwhole)
  · rw [heat]
    have hleft : (o₁.takeMaybe (·.isNode)).Foresees _ := hwithout.mono (List.subset_append_right _ _)
    exact (Does.pure hn₃).given ((hc₁.narrow hleft).finish hs hd hready hspares)

theorem makes_sizedArray (hs : Setting s source e ready clean recur)
    (hready : Opened s.grammar ready (.node (some d) i j cs)) (hd : s.refusable d = false)
    (hopening : o.Foresees (cursor s.grammar (.node (some d) i j cs)).rest) {rank : δ}
    (ho : s.isSized rank o = true) (bounds : Option ArrayBounds) :
    Makes source e (clean (.node (some d) i j cs))
      (shaped s.grammar recur (.node (some d) i j cs) (.sizedArray rank bounds)) draft := by
  rw [Survey.isSized, Bool.and_eq_true] at ho
  obtain ⟨hrank, hfits⟩ := ho
  obtain ⟨o', hafter, hspares⟩ := (Option.any_eq_true _ _).mp hfits
  obtain ⟨oₛ, hsizes, hafter⟩ := Option.bind_eq_some_iff.mp hafter
  obtain ⟨o₁, ho₁, hsizes⟩ := Option.bind_eq_some_iff.mp hsizes
  obtain ⟨o₂, ho₂, hsizes⟩ := Option.bind_eq_some_iff.mp hsizes
  obtain ⟨o₃, ho₃, hsizes⟩ := Option.bind_eq_some_iff.mp hsizes
  obtain ⟨o₄, ho₄, hsizes⟩ := Option.bind_eq_some_iff.mp hsizes
  obtain ⟨hnew, rfl⟩ := Outlook.take_eq_some.mp ho₁
  obtain ⟨hmust₂, rfl⟩ := Outlook.take_eq_some.mp ho₂
  obtain ⟨hmust₃, rfl⟩ := Outlook.take_eq_some.mp ho₃
  obtain ⟨hmust₄, rfl⟩ := Outlook.take_eq_some.mp ho₄
  obtain ⟨hmust₅, rfl⟩ := Outlook.take_eq_some.mp hsizes
  obtain ⟨kw, c₁, htoken, hc₁⟩ := (Reached.start hopening).token hs hnew
  obtain ⟨element, c₂, hnode, helement, hform, hclean, hc₂⟩ := hc₁.node hs hready hmust₂
  have hmake : ∀ (b : ArrayBounds) (draft : Draft), Makes source e True (do
      let n ← allocate (.arrayCreateExpression b) (← spanOf (RawTree.node (some d) i j cs))
      setToken n .keyword kw
      return n) draft := by
    intro b draft
    refine .after rfl ((makes_allocate _ _).andThen fun n draft₁ hn => ?_)
    exact (steps_setToken _ _ hn.root).andThen fun _ _ hgrows => .pure (hn.then_grows hgrows)
  have hearly : Does source e True (bounds.mapM fun b => do
      let n ← allocate (.arrayCreateExpression b) (← spanOf (RawTree.node (some d) i j cs))
      setToken n .keyword kw
      return n) draft fun early draft' => FreshMaybe draft.forest draft'.forest early := by
    cases bounds with
    | none => exact .pure .none
    | some b => exact (hmake b draft).andThen fun n _ hn => .pure (.some hn)
  rw [shaped, sizedArray, htoken, pure_bind]
  refine hearly.andThen fun early draft₁ hearly => ?_
  rw [hnode, pure_bind]
  refine (hs.makes helement hform draft₁).part hclean fun hclean type draft₂ htype => ?_
  obtain ⟨_, c₃, htoken, hc₃⟩ := (hc₂ hclean).anyToken hs hmust₃
  rw [htoken, pure_bind]
  obtain ⟨sizes, c₄, hnode, hsizes, hform, hclean, hc₄⟩ := hc₃.node hs hready hmust₄
  dsimp only
  rw [hnode, pure_bind]
  obtain ⟨d', i', j', cs', rfl, hlist⟩ := exists_of_isFormOf hform
  refine (hs.does_elements hlist (hs.opened hsizes)).part hclean fun hclean arguments draft₃ hargs => ?_
  obtain ⟨_, c₅, htoken, hc₅⟩ := (hc₄ hclean).anyToken hs hmust₅
  rw [htoken, pure_bind]
  have hfits : s.leaves (Option.bind _ _) = true := (Option.any_eq_true _ _).mpr ⟨o', hafter, hspares⟩
  have hmade : FreshAll draft.forest draft₃.forest (type :: arguments) :=
    .cons (htype.after_grows hearly.grows) hargs
  cases early with
  | some n =>
      have hn := hearly.fresh n rfl
      have hn₃ := (hn.then_grows htype.grows).then_grows hargs.grows
      refine hs.does_finishSized hready hd hrank hfits hc₅ hn₃ hmade fun hmem => ?_
      rcases List.mem_cons.mp hmem with rfl | hmem
      · exact htype.ne hn.root rfl
      · exact Nat.not_lt.mpr (hargs.new n hmem) (hn.root.of_grows htype.grows).lt
  | none =>
      refine (hmake _ draft₃).andThen fun n draft₄ hn => ?_
      refine hs.does_finishSized hready hd hrank hfits hc₅ (hn.after_grows hmade.grows)
        (hmade.then_grows hn.grows) fun hmem => ?_
      exact hn.ne (hmade.root n hmem) rfl

/-! ## Creations whose initializer gives the size -/

/-- What is known of the node that a type becomes, depending on whether it ends in a rank of one
dimension. -/
def ShowsRank (single : Prop) (f f' : Forest) (n : NodeId) : Prop :=
  (single → f'.kind n = .arrayType 1 ∧
    ∃ element, f'.child? n .type = some element ∧ f.size ≤ element ∧ element < n) ∧
  (¬ single → (f'.kind n == .arrayType 1) = false)

theorem does_detach {m : NodeId} (hm : m < draft.forest.size) :
    Does source e True (Lower.detach m) draft fun _ draft' =>
      Grows draft.forest draft'.forest ∧ draft'.forest.IsRoot m :=
  .of_ok rfl ⟨grows_detach draft.forest m, isRoot_detach hm⟩

/-- An array creation without sizes is refused unless its type ends in a rank of one dimension. -/
theorem makes_listedArray (hs : Setting s source e ready clean recur)
    (hready : Opened s.grammar ready (.node (some d) i j cs))
    (hopening : o.Foresees (cursor s.grammar (.node (some d) i j cs)).rest) (types : δ → Bool)
    (ho : s.isListed types o = true) (single : RawTree δ → Prop)
    (hlowered : ∀ d, types d = true → s.lowered d = true)
    (hshows : ∀ {t : RawTree δ} {f f' n}, t.symbol.isFormOf types = true →
      s.shows t f f' n → ShowsRank (single t) f f' n)
    (hwhole : ∀ t ∈ cs, t.symbol.isFormOf types = true →
      (clean (.node (some d) i j cs) ↔ single t ∧ ∀ c ∈ cs, clean c))
    (he : e = .unexpectedShape (s.grammar.name d) "array type of rank 1") :
    Makes source e (clean (.node (some d) i j cs))
      (shaped s.grammar recur (.node (some d) i j cs) .listedArray) draft := by
  obtain ⟨o₃, hafter, hspares⟩ := (Option.any_eq_true _ _).mp ho
  obtain ⟨o₁, ho₁, hafter⟩ := Option.bind_eq_some_iff.mp hafter
  obtain ⟨o₂, ho₂, hafter⟩ := Option.bind_eq_some_iff.mp hafter
  obtain ⟨hmust₁, rfl⟩ := Outlook.take_eq_some.mp ho₁
  obtain ⟨hmust₂, rfl⟩ := Outlook.take_eq_some.mp ho₂
  obtain ⟨hmust₃, rfl⟩ := Outlook.take_eq_some.mp hafter
  obtain ⟨kw, c₁, htoken, hc₁⟩ := (Reached.start hopening).token hs hmust₁
  obtain ⟨type, rest, hrest, htook⟩ := Cursor.took_of_must hc₁.foresees hmust₂
  have hmem := hc₁.mem_children type htook.mem
  obtain ⟨d', i', j', cs', htype, hd'⟩ := exists_of_isFormOf htook.holds
  have hform : type.symbol.isFormOf s.lowered = true := by
    rw [htype]
    exact hlowered d' hd'
  have hwhole := hwhole type hmem htook.holds
  refine .after rfl ((makes_allocate _ _).andThen fun n draft₁ hn => ?_)
  rw [htoken, pure_bind]
  refine (steps_setToken .keyword kw hn.root).andThen fun _ draft₂ hgrows => ?_
  have hn := hn.then_grows hgrows
  dsimp only
  rw [Cursor.node_node hrest (isNode_of_isFormOf _ htook.holds), pure_bind]
  refine (hs.does (hready.child hmem) hform draft₂).part (fun h => (hwhole.mp h).2 type hmem)
    fun hclean m draft₃ hm => .after (inspect_ok _) ?_
  obtain ⟨hm, hshown⟩ := hm
  have hn₃ := hn.then_grows hm.grows
  by_cases hsingle : single type
  · obtain ⟨hkind, element, hchild, hnew, hlt⟩ := (hshows htook.holds hshown).1 hsingle
    have hrank : (NodeKind.arrayType 1 == .arrayType 1) = true := rfl
    rw [hkind, hrank, if_pos rfl, hchild]
    dsimp only
    have helement : element < draft₃.forest.size := Nat.lt_trans hlt hm.root.lt
    refine (does_detach helement).andThen fun _ draft₄ hdetached => ?_
    have hne : element ≠ n := by
      rintro rfl
      exact Nat.not_lt.mpr hnew hn.root.lt
    obtain ⟨draft₅, hset, hn₅, -⟩ := (attaches_set source n .type).fresh
      (hn₃.then_grows hdetached.1) hdetached.2 (Nat.le_trans hn.grows.size_le hnew) hne
    refine .after hset ?_
    obtain ⟨init, c₃, hnode, hinit, hform, hclean', hc₃⟩ := (hc₁.took htook hclean).node hs hready hmust₃
    rw [hnode, pure_bind]
    refine (hs.makes hinit hform draft₅).part hclean' fun hclean' init' draft₆ hinit' => ?_
    have hall := (hc₃ hclean').children hs hready hspares
    obtain ⟨draft₇, hset, hn₇, -⟩ := (attaches_set source n .initializer).fresh
      (hn₅.then_grows hinit'.grows) hinit'.root
      (Nat.le_trans hn₅.grows.size_le hinit'.new) (hinit'.ne hn₅.root)
    exact .after hset ((Does.pure hn₇).given (hwhole.mpr ⟨hsingle, hall⟩))
  · have hkind := (hshows htook.holds hshown).2 hsingle
    rw [hkind, if_neg (by simp)]
    subst he
    exact .throw fun h => hsingle (hwhole.mp h).1

end Setting

end DualSyntax.Lowering
