import DualSyntax.Proofs.Lowering.Declaring

/-!
# Reading parts

Every part has a counterpart on outlooks (`Survey.partAfter`).  If the counterpart does not fail, the
part reads what it asks for whatever the match is: it fails only where a nested match is refused, and
the children it takes without looking inside hold no refused match.
-/

namespace DualSyntax.Lowering

open Forest Lower

variable {δ : Type}

namespace Survey

variable [DecidableEq δ] (s : Survey δ)

/-- Whether a definition's matches may be opened, given the outlook after reading their children. -/
def opens (d : δ) (after : Option (Outlook δ)) : Bool :=
  !s.refusable d && after.any (·.every s.spares)

mutual

/-- The outlook after a part of a match of `d` has been read; `none` if reading it may fail. -/
def partAfter (d : δ) : Part δ → Outlook δ → Option (Outlook δ)
  | .keep k _, o | .close k _, o | .drop k, o => o.take (·.isAny [k])
  | .keepMaybe k _, o | .dropMaybe k, o | .needless k, o => some (o.takeMaybe (·.isAny [k]))
  | .keepAny _, o | .dropAny, o => o.take (·.isToken)
  | .node _, o | .body _, o => o.take (·.isFormOf s.lowered)
  | .nodeMaybe _, o => o.takeOnly (·.isNode) (·.isFormOf s.lowered)
  | .formMaybe f _, o => o.takeOnly (·.isForm f) (·.isFormOf s.lowered)
  | .nodes _, o => o.takeAll (·.isNode) (·.isFormOf s.lowered)
  | .forms f _, o | .accessors f, o => o.takeAll (·.isForm f) (·.isFormOf s.lowered)
  | .everything _, _ => if (s.grammar.rule d).any (·.every s.admits) then some [none] else none
  | .list _, o => o.take (·.isFormOf s.isList)
  | .resultType _, o => o.take (·.isFormOf fun f => s.harmless f && s.lowered f)
  | .objectDefault _ _, o | .impliedAccessors _, o | .commentsAfter, o => some o
  | .given k _ parts, o => do
    let inner ← partsAfter d parts (o.past (·.isAny [k]))
    return inner ++ o.without (·.isAny [k])
  | .within f parts, o =>
    if s.opens f (partsAfter f parts (s.opening f)) then some (o.takeMaybe (·.isForm f)) else none
  | .withinAll f parts, o =>
    if s.opens f (partsAfter f parts (s.opening f))
    then o.takeAll (·.isForm f) (·.isForm f) else none
  | .modifiers, o | .propertyModifiers, o => o.take (·.isFormOf s.spellsModifiers)
  | .modifierMaybe k, o =>
    if s.modifiers.contains k then some (o.takeMaybe (·.isAny [k])) else none
  | .typeMembers name, o =>
    if s.harmless name && s.lowered name
    then o.takeAll (·.isNode) (·.isFormOf s.lowered) else none
  | .headerItems f _, o =>
    o.takeOnly (·.isNode) (·.isFormOf fun f' => if f' = f then s.lowered f' else s.isList f')
  | .declarators suffix asType asNew, o =>
    o.take (·.isFormOf (s.declares ⟨suffix, asType, asNew⟩))
  | .elements _, _ | .ownModifiers, _ => none

def partsAfter (d : δ) : List (Part δ) → Outlook δ → Option (Outlook δ)
  | [], o => some o
  | p :: ps, o => do partsAfter d ps (← partAfter d p o)

end

end Survey

/-- A step that reads children of a match `raw` from the cursor `c` up to the cursor `c'`.  It
succeeds if the children are clean, and then those it has read are. -/
structure Reads (source : Source) (e : LowerError) (clean : RawTree δ → Prop) (owner : NodeId)
    (raw : RawTree δ) (o : Outlook δ) (c c' : Cursor δ) (ok : Prop) (x : Lower (Cursor δ)) :
    Prop where
  foresees : o.Foresees c'.rest
  subset : ∀ t ∈ c'.rest, t ∈ c.rest
  enough : (∀ t ∈ raw.children, clean t) → ok
  covers : ok → ∀ t ∈ c.rest, clean t ∨ t ∈ c'.rest
  does : ∀ draft, draft.forest.IsRoot owner → Does source e ok x draft fun c'' draft' =>
    c'' = c' ∧ Grows draft.forest draft'.forest

namespace Reads

variable {source : Source} {e : LowerError} {clean : RawTree δ → Prop} {owner : NodeId}
  {raw t : RawTree δ} {o o' : Outlook δ} {c c' c'' : Cursor δ} {ok ok' : Prop}
  {x : Lower (Cursor δ)} {β : Type} {m : Lower β} {p : Symbol δ → Bool}

theorem mono (h : Reads source e clean owner raw o c c' ok x) (hsub : o ⊆ o') :
    Reads source e clean owner raw o' c c' ok x :=
  { h with foresees := h.foresees.mono hsub }

theorem andThen {f : Cursor δ → Lower (Cursor δ)}
    (h : Reads source e clean owner raw o c c' ok x)
    (h' : Reads source e clean owner raw o' c' c'' ok' (f c')) :
    Reads source e clean owner raw o' c c'' (ok ∧ ok') (x >>= f) where
  foresees := h'.foresees
  subset t ht := h.subset t (h'.subset t ht)
  enough hclean := ⟨h.enough hclean, h'.enough hclean⟩
  covers hok t ht := by
    rcases h.covers hok.1 t ht with hclean | ht
    · exact .inl hclean
    · exact h'.covers hok.2 t ht
  does draft ho := by
    refine (h.does draft ho).bind fun _ c₁ draft₁ hc => ?_
    obtain ⟨rfl, hgrows⟩ := hc
    exact (h'.does draft₁ (ho.of_grows hgrows)).imp fun _ _ h => ⟨h.1, hgrows.trans h.2⟩

theorem stay (hc : o.Foresees c.rest)
    (hx : ∀ draft, draft.forest.IsRoot owner → Does source e True x draft fun c' draft' =>
      c' = c ∧ Grows draft.forest draft'.forest) :
    Reads source e clean owner raw o c c True x where
  foresees := hc
  subset _ ht := ht
  enough _ := trivial
  covers _ _ ht := .inr ht
  does := hx

theorem stayPure (hc : o.Foresees c.rest) : Reads source e clean owner raw o c c True (pure c) :=
  stay hc fun _ _ => .pure ⟨rfl, Keeps.refl _ _⟩

theorem take (htook : Took p o c t c') (henough : (∀ t ∈ raw.children, clean t) → ok)
    (hclean : ok → clean t)
    (hact : ∀ draft, draft.forest.IsRoot owner → Steps source e ok m draft) :
    Reads source e clean owner raw (o.past p) c c' ok (do let _ ← m; return c') where
  foresees := htook.foresees
  subset t ht := by rw [htook.rest]; exact List.mem_cons_of_mem _ ht
  enough := henough
  covers hok := by
    rw [htook.rest, List.forall_mem_cons]
    exact ⟨.inl (hclean hok), fun t ht => .inr ht⟩
  does draft ho := (hact draft ho).finish fun _ _ hgrows => .pure ⟨rfl, hgrows⟩

theorem takeThen {next : Lower (Cursor δ)} (htook : Took p o c t c')
    (henough : (∀ t ∈ raw.children, clean t) → ok) (hclean : ok → clean t)
    (hact : ∀ draft, draft.forest.IsRoot owner → Steps source e ok m draft)
    (h : Reads source e clean owner raw o' c' c'' ok' next) :
    Reads source e clean owner raw o' c c'' (ok ∧ ok') (do let _ ← m; next) := by
  have hboth := (take htook henough hclean hact).andThen (f := fun _ => next) h
  simpa only [bind_assoc, pure_bind] using hboth

theorem takeAll [DecidableEq δ] {q : Symbol δ → Bool} (hc : o.Foresees c.rest)
    (ho : o.takeAll p q = some o')
    (hsub : ∀ t ∈ c.rest, t ∈ raw.children)
    (hact : ∀ draft, draft.forest.IsRoot owner →
      Steps source e (∀ t ∈ c.rest.takeWhile (p ·.symbol), clean t) m draft) :
    Reads source e clean owner raw o' c { c with rest := c.rest.dropWhile (p ·.symbol) }
      (∀ t ∈ c.rest.takeWhile (p ·.symbol), clean t)
      (do let _ ← m; return { c with rest := c.rest.dropWhile (p ·.symbol) }) where
  foresees := (hc.takeAll ho).2
  subset t ht := (List.dropWhile_sublist _).subset ht
  enough hclean t ht := hclean t (hsub t ((List.takeWhile_sublist _).subset ht))
  covers hok t ht := by
    rw [← List.takeWhile_append_dropWhile (p := fun t : RawTree δ => p t.symbol) (l := c.rest),
      List.mem_append] at ht
    exact ht.imp_left (hok t)
  does draft ho := (hact draft ho).finish fun _ _ hgrows => .pure ⟨rfl, hgrows⟩

end Reads

namespace Setting

variable {s : Survey δ} {source : Source} {e : LowerError}
  {ready clean : RawTree δ → Prop} {recur : Recur δ} {draft : Draft} {owner : NodeId}
  {o o' : Outlook δ} {c : Cursor δ} {raw t : RawTree δ}

theorem steps_addMember (hs : Setting s source e ready clean recur) {name : Option (RawTree δ)}
    (hname : ∀ n ∈ name, Fine ready clean n ∧ n.symbol.isFormOf s.lowered = true) (ht : ready t)
    (hform : t.symbol.isFormOf s.lowered = true) (ho : draft.forest.IsRoot owner) :
    Steps source e (clean t) (addMember recur owner name t) draft := by
  refine (hs.makes ht hform draft).finish fun n draft₁ hn => .after (inspect_ok _) ?_
  have hpush : ∀ draft₂ : Draft, Fresh draft.forest draft₂.forest n →
      Does source e True (push owner .members n) draft₂ fun _ draft' =>
        Grows draft.forest draft'.forest :=
    fun draft₂ hn => (attaches_push source owner .members).does_fresh ho hn
  dsimp only
  split
  · cases name with
    | none => exact hpush draft₁ hn
    | some name =>
        obtain ⟨hfine, hlowered⟩ := hname name rfl
        refine Makes.attachFinish ((hs.makes hfine.ready hlowered draft₁).always hfine.clean)
          (attaches_set source n .identifier) hn.root fun draft₂ hgrows => ?_
        exact hpush draft₂ (hn.then_grows hgrows)
  · exact hpush draft₁ hn

theorem attaches_setAccessor (source : Source) (owner : NodeId) :
    Attaches source owner (setAccessor owner) := by
  intro draft c ho hc hne
  have heither : setAccessor owner c source draft = set owner .getter c source draft ∨
      setAccessor owner c source draft = set owner .setter c source draft := by
    rw [setAccessor, bind_ok (inspect_ok _)]
    cases draft.forest.kind c
    case accessor k =>
      cases k
      case get => exact .inl rfl
      all_goals exact .inr rfl
    all_goals exact .inr rfl
  rcases heither with h | h
  · rw [h]
    exact attaches_set source owner .getter draft c ho hc hne
  · rw [h]
    exact attaches_set source owner .setter draft c ho hc hne

theorem steps_expressionStatements (hs : Setting s source e ready clean recur) {d : δ} {i j : Nat}
    {cs : List (RawTree δ)} (hd : s.isList d = true) (ht : ready (.node (some d) i j cs))
    {put : NodeId → Lower Unit} (hput : Attaches source owner put)
    (ho : draft.forest.IsRoot owner) :
    Steps source e (clean (.node (some d) i j cs)) (do
      (← expressionStatements s.grammar recur (.node (some d) i j cs)).forM put) draft := by
  refine hs.steps_items hd (hs.opened ht) (fun c hc hadmits draft => ?_) hput ho
  refine (hs.makes_child (hs.child ht hc) hadmits).finish fun n draft₁ hn => .after rfl ?_
  exact (does_wrap source e hn _ _ _).imp fun _ _ h => h.fresh

/-- An opened match: its children are read into the same node. -/
theorem steps_opened [DecidableEq δ] (hs : Setting s source e ready clean recur) {d : δ} {i j : Nat}
    {cs : List (RawTree δ)} {parts : List (Part δ)}
    (hd : s.opens d (s.partsAfter d parts (s.opening d)) = true)
    (ht : ready (.node (some d) i j cs))
    (hread : ∀ o', s.partsAfter d parts (s.opening d) = some o' → ∃ c' ok,
      Reads source e clean owner (.node (some d) i j cs) o'
        (cursor s.grammar (.node (some d) i j cs)) c' ok
        (readParts s.grammar recur owner (.node (some d) i j cs)
          (cursor s.grammar (.node (some d) i j cs)) parts))
    (ho : draft.forest.IsRoot owner) :
    Steps source e (clean (.node (some d) i j cs)) (readParts s.grammar recur owner
      (.node (some d) i j cs) (cursor s.grammar (.node (some d) i j cs)) parts) draft := by
  simp only [Survey.opens, Bool.and_eq_true, Bool.not_eq_true', Option.any_eq_true] at hd
  obtain ⟨hrefusable, o', hafter, hspares⟩ := hd
  obtain ⟨c', ok, hreads⟩ := hread o' hafter
  refine (hreads.does draft ho).mono ⟨fun hok => ?_, fun hclean => ?_⟩ fun _ _ h => h.2
  · refine hs.clean_node hrefusable (hs.clean_children (t := .node (some d) i j cs) fun t ht' => ?_)
    rcases hreads.covers hok t ht' with hclean | hleft
    · exact hclean
    · have hmem := mem_children_of_mem_cursor (hreads.subset t hleft)
      exact hs.clean_of_spares (hs.child ht hmem) (hreads.foresees.every hspares t hleft)
  · exact hreads.enough fun t ht' => hs.clean_child hclean ht'

/-! ### The ways in which parts take children -/

theorem reads_token (hs : Setting s source e ready clean recur) {k : TokenKind}
    (ho' : o.take (·.isAny [k]) = some o') (hc : o.Foresees c.rest) {f : Token → Lower Unit}
    (hact : ∀ tk draft, draft.forest.IsRoot owner → Steps source e True (f tk) draft) :
    ∃ c' ok, Reads source e clean owner raw o' c c' ok (do
      let taken ← c.token k
      f taken.1
      return taken.2) := by
  obtain ⟨hmust, rfl⟩ := Outlook.take_eq_some.mp ho'
  obtain ⟨tk, c', htoken, htook⟩ := Cursor.token_must hc hmust
  refine ⟨c', True, ?_⟩
  rw [htoken, pure_bind]
  exact .take htook (fun _ => trivial) (fun _ => hs.clean_leaf tk) fun draft ho => hact tk draft ho

theorem reads_anyToken (hs : Setting s source e ready clean recur)
    (ho' : o.take (·.isToken) = some o') (hc : o.Foresees c.rest) {f : Token → Lower Unit}
    (hact : ∀ tk draft, draft.forest.IsRoot owner → Steps source e True (f tk) draft) :
    ∃ c' ok, Reads source e clean owner raw o' c c' ok (do
      let taken ← c.anyToken
      f taken.1
      return taken.2) := by
  obtain ⟨hmust, rfl⟩ := Outlook.take_eq_some.mp ho'
  obtain ⟨tk, c', htoken, htook⟩ := Cursor.anyToken_must hc hmust
  refine ⟨c', True, ?_⟩
  rw [htoken, pure_bind]
  exact .take htook (fun _ => trivial) (fun _ => hs.clean_leaf tk) fun draft ho => hact tk draft ho

/-- A match of some form is taken, and something is done with it. -/
theorem reads_node {p : Symbol δ → Bool} (hp : ∀ a, p a = true → a.isNode = true)
    (ho' : o.take p = some o') (hc : o.Foresees c.rest) (hsub : ∀ t ∈ c.rest, t ∈ raw.children)
    {β : Type} {f : RawTree δ → Lower β}
    (hact : ∀ t ∈ raw.children, p t.symbol = true → ∀ draft, draft.forest.IsRoot owner →
      Steps source e (clean t) (f t) draft) :
    ∃ c' ok, Reads source e clean owner raw o' c c' ok (do
      let taken ← c.node
      let _ ← f taken.1
      return taken.2) := by
  obtain ⟨hmust, rfl⟩ := Outlook.take_eq_some.mp ho'
  obtain ⟨t, rest, hrest, htook⟩ := Cursor.took_of_must hc hmust
  have hmem := hsub t htook.mem
  refine ⟨{ c with rest }, clean t, ?_⟩
  rw [Cursor.node_node hrest (hp _ htook.holds), pure_bind]
  exact .take htook (fun h => h t hmem) id (hact t hmem htook.holds)

/-- A child is taken if it has a property. -/
theorem reads_maybe {α : Type} {found : Option α × Cursor δ} (tree : α → RawTree δ)
    {p : Symbol δ → Bool} {x : Lower (Cursor δ)}
    (hor : (∃ a c', found = (some a, c') ∧ Took p o c (tree a) c') ∨
      found = (none, c) ∧ (o.without p).Foresees c.rest)
    (hsome : ∀ a c', found = (some a, c') → Took p o c (tree a) c' →
      ∃ ok, Reads source e clean owner raw (o.past p) c c' ok x)
    (hnone : found = (none, c) → x = pure c) :
    ∃ c' ok, Reads source e clean owner raw (o.takeMaybe p) c c' ok x := by
  rcases hor with ⟨a, c', hfound, htook⟩ | ⟨hfound, hwithout⟩
  · obtain ⟨ok, hreads⟩ := hsome a c' hfound htook
    exact ⟨c', ok, hreads.mono (List.subset_append_left _ _)⟩
  · rw [hnone hfound]
    exact ⟨c, True, (Reads.stayPure hwithout).mono (List.subset_append_right _ _)⟩

theorem reads_tokenMaybe (hs : Setting s source e ready clean recur) {k : TokenKind}
    (hc : o.Foresees c.rest) {f : Token → Lower Unit} {x : Lower (Cursor δ)}
    (hact : ∀ tk, tk.kind = k → (.leaf tk) ∈ c.rest → ∀ draft, draft.forest.IsRoot owner →
      Steps source e True (f tk) draft)
    (hsome : ∀ tk c', c.eat k = (some tk, c') → x = do f tk; return c')
    (hnone : c.eat k = (none, c) → x = pure c) :
    ∃ c' ok, Reads source e clean owner raw (o.takeMaybe (·.isAny [k])) c c' ok x := by
  refine reads_maybe .leaf (Cursor.eat_or k hc) (fun tk c' heat htook => ⟨True, ?_⟩) hnone
  rw [hsome tk c' heat]
  have hk : tk.kind = k := by simpa [RawTree.symbol, Symbol.isAny] using htook.holds
  exact .take htook (fun _ => trivial) (fun _ => hs.clean_leaf tk) (hact tk hk htook.mem)

/-- All next matches of some form are taken, and something is done with each. -/
theorem reads_nodes [DecidableEq δ] {p q : Symbol δ → Bool} (ho' : o.takeAll p q = some o')
    (hc : o.Foresees c.rest)
    (hsub : ∀ t ∈ c.rest, t ∈ raw.children) {found : List (RawTree δ) × Cursor δ}
    (hfound : found = (c.rest.takeWhile (p ·.symbol),
      { c with rest := c.rest.dropWhile (p ·.symbol) }))
    {round : RawTree δ → PUnit → Lower (ForInStep PUnit)}
    (hround : ∀ t ∈ raw.children, q t.symbol = true → ∀ draft, draft.forest.IsRoot owner →
      Does source e (clean t) (round t ⟨⟩) draft fun r draft' =>
        r = .yield ⟨⟩ ∧ Grows draft.forest draft'.forest) :
    ∃ c' ok, Reads source e clean owner raw o' c c' ok (do
      let _ ← forIn found.1 PUnit.unit round
      return found.2) := by
  subst hfound
  refine ⟨_, _, .takeAll hc ho' hsub fun draft ho => steps_forIn (fun t ht => ?_) ho⟩
  exact hround t (hsub t ((List.takeWhile_sublist _).subset ht)) ((hc.takeAll ho').1 t ht)

/-- A match becomes a node below the owner. -/
theorem round_attach (hs : Setting s source e ready clean recur) (ht : ready t)
    (hform : t.symbol.isFormOf s.lowered = true) {put : NodeId → Lower Unit}
    (hput : Attaches source owner put) (ho : draft.forest.IsRoot owner) :
    Does source e (clean t) (do
      let n ← recur t
      put n
      pure (ForInStep.yield PUnit.unit)) draft fun r draft' =>
        r = .yield ⟨⟩ ∧ Grows draft.forest draft'.forest :=
  Makes.attachFinish (hs.makes ht hform draft) hput ho fun _ hgrows => .pure ⟨rfl, hgrows⟩

structure MatchOf (g : Grammar δ) (ready : RawTree δ → Prop) (d : δ) (raw : RawTree δ) : Prop where
  opened : Opened g ready raw
  form : raw.symbol = .node (some d)

theorem every_child {d : δ} {p : Symbol δ → Bool}
    (hraw : MatchOf s.grammar ready d raw) (hd : (s.grammar.rule d).any (·.every p) = true) :
    ∀ t ∈ raw.children, p t.symbol = true := by
  intro t ht
  have hform := hraw.form
  cases hraw.opened.conforms with
  | leaf => cases hform
  | node hrule hspells _ =>
      cases hform
      rw [hrule, Option.any_some] at hd
      exact hspells.every (by simpa [Rule.everyAll] using hd) _ (List.mem_map_of_mem ht)

/-- The next match is taken and becomes a node below the owner. -/
theorem takes_node (hs : Setting s source e ready clean recur) {d : δ} {p : Symbol δ → Bool}
    {c' : Cursor δ} (hraw : MatchOf s.grammar ready d raw) (hsub : ∀ t ∈ c.rest, t ∈ raw.children)
    (htook : Took p o c t c') (hform : t.symbol.isFormOf s.lowered = true)
    {put : NodeId → Lower Unit} (hput : Attaches source owner put) :
    Reads source e clean owner raw (o.past p) c c' (clean t) (do
      let n ← recur t
      put n
      return c') := by
  have hmem := hsub t htook.mem
  rw [← bind_assoc]
  exact .take htook (fun h => h t hmem) id fun draft ho =>
    (hs.makes (hraw.opened.child hmem) hform draft).attach hput ho

variable [DecidableEq δ]

mutual

/-- A part whose counterpart does not fail is read. -/
theorem readPart_reads (hs : Setting s source e ready clean recur) : ∀ (p : Part δ)
    {d : δ} {o o' : Outlook δ} {raw : RawTree δ} {c : Cursor δ}, s.partAfter d p o = some o' →
    o.Foresees c.rest → MatchOf s.grammar ready d raw → (∀ t ∈ c.rest, t ∈ raw.children) →
    ∃ c' ok, Reads source e clean owner raw o' c c' ok (readPart s.grammar recur owner raw c p)
  | .keep k title, d, o, o', raw, c, ho', hc, _, _ => by
      rw [readPart]
      exact hs.reads_token ho' hc fun tk _ ho => steps_setToken title tk ho
  | .close k title, d, o, o', raw, c, ho', hc, _, _ => by
      rw [readPart]
      simp only [← bind_assoc]
      refine hs.reads_token (f := fun tk => do
        attachTrailing owner tk.leading
        setToken owner title tk) ho' hc fun tk draft ho => ?_
      refine (steps_attachTrailing tk.leading ho).andThen fun _ draft₁ hgrows => ?_
      exact (steps_setToken title tk (ho.of_grows hgrows)).imp fun _ _ h => hgrows.trans h
  | .drop k, d, o, o', raw, c, ho', hc, _, _ => by
      rw [readPart]
      exact hs.reads_token (f := fun _ => pure ()) ho' hc fun _ _ _ => .pure (Keeps.refl _ _)
  | .keepMaybe k title, d, o, o', raw, c, ho', hc, _, _ => by
      obtain rfl : o.takeMaybe (·.isAny [k]) = o' := by simpa [Survey.partAfter] using ho'
      refine hs.reads_tokenMaybe hc (fun tk _ _ _ ho => steps_setToken title tk ho)
        (fun tk c' heat => ?_) fun heat => ?_
      · rw [readPart, heat]
      · rw [readPart, heat]
  | .dropMaybe k, d, o, o', raw, c, ho', hc, _, _ => by
      obtain rfl : o.takeMaybe (·.isAny [k]) = o' := by simpa [Survey.partAfter] using ho'
      refine hs.reads_tokenMaybe (f := fun _ => pure ()) hc
        (fun _ _ _ _ _ => .pure (Keeps.refl _ _)) (fun tk c' heat => ?_) fun heat => ?_
      · rw [readPart, heat]
        rfl
      · rw [readPart, heat]
  | .needless k, d, o, o', raw, c, ho', hc, _, _ => by
      obtain rfl : o.takeMaybe (·.isAny [k]) = o' := by simpa [Survey.partAfter] using ho'
      refine hs.reads_tokenMaybe hc (fun tk _ _ _ _ => steps_report tk.span .redundantSemicolon)
        (fun tk c' heat => ?_) fun heat => ?_
      · rw [readPart, heat]
      · rw [readPart, heat]
  | .modifierMaybe k, d, o, o', raw, c, ho', hc, hraw, hsub => by
      rw [Survey.partAfter, Option.ite_none_right_eq_some] at ho'
      obtain ⟨hk, ho'⟩ := ho'
      cases ho'
      refine hs.reads_tokenMaybe (f := fun tk => do push owner .modifiers (← Lower.modifier tk)) hc
        (fun tk htk hmem draft ho => ?_) (fun tk c' heat => ?_) fun heat => ?_
      · subst htk
        exact (makes_modifier (hs.modifier (hraw.opened.child (hsub _ hmem)) hk)).attach
          (attaches_push source owner .modifiers) ho
      · rw [readPart, heat]
        simp only [bind_assoc]
      · rw [readPart, heat]
  | .keepAny title, d, o, o', raw, c, ho', hc, _, _ => by
      rw [readPart]
      exact hs.reads_anyToken ho' hc fun tk _ ho => steps_setToken title tk ho
  | .dropAny, d, o, o', raw, c, ho', hc, _, _ => by
      rw [readPart]
      exact hs.reads_anyToken (f := fun _ => pure ()) ho' hc fun _ _ _ => .pure (Keeps.refl _ _)
  | .node title, d, o, o', raw, c, ho', hc, hraw, hsub => by
      rw [readPart]
      simp only [← bind_assoc]
      refine reads_node (f := fun t => recur t >>= set owner title) isNode_of_isFormOf ho' hc hsub
        fun t ht hform draft ho => ?_
      exact (hs.makes (hraw.opened.child ht) hform draft).attach (attaches_set source owner title) ho
  | .body title, d, o, o', raw, c, ho', hc, hraw, hsub => by
      have hset : ∀ t ∈ raw.children, t.symbol.isFormOf s.lowered = true → ∀ draft : Draft,
          draft.forest.IsRoot owner → Steps source e (clean t) (recur t >>= set owner title) draft :=
        fun t ht hform draft ho =>
          (hs.makes (hraw.opened.child ht) hform draft).attach (attaches_set source owner title) ho
      have hread : readPart s.grammar recur owner raw c (.body title) = (do
          let taken ← c.node
          (do
            if isEmptyStatement s.grammar taken.1 then report (← spanOf taken.1) .emptyStatement
            recur taken.1 >>= set owner title)
          return taken.2) := by
        rw [readPart]
        refine bind_congr fun taken => ?_
        dsimp only
        split <;> simp
      rw [hread]
      refine reads_node (f := fun t => do
        if isEmptyStatement s.grammar t then report (← spanOf t) .emptyStatement
        recur t >>= set owner title) isNode_of_isFormOf ho' hc hsub fun t ht hform draft ho => ?_
      dsimp only
      split
      · refine .after rfl ((steps_report _ _).andThen fun _ draft₁ hgrows => ?_)
        exact (hset t ht hform draft₁ (ho.of_grows hgrows)).imp fun _ _ h => hgrows.trans h
      · exact hset t ht hform draft ho
  | .resultType title, d, o, o', raw, c, ho', hc, hraw, hsub => by
      have hread : readPart s.grammar recur owner raw c (.resultType title) = (do
          let taken ← c.node
          (if !isVoid taken.1 then recur taken.1 >>= set owner title else pure ())
          return taken.2) := by
        rw [readPart]
        refine bind_congr fun taken => ?_
        dsimp only
        split <;> simp
      rw [hread]
      refine reads_node (f := fun t => if !isVoid t then recur t >>= set owner title else pure ())
        isNode_of_isFormOf ho' hc hsub fun t ht hform draft ho => ?_
      obtain ⟨f, i, j, cs, rfl, hf⟩ := exists_of_isFormOf hform
      rw [Bool.and_eq_true] at hf
      have hchild := hraw.opened.child ht
      have hclean : clean (.node (some f) i j cs) := hs.clean_of_spares hchild hf.1
      refine Does.iff ?_ (iff_of_true trivial hclean)
      split
      · exact ((hs.makes hchild hf.2 draft).attach (attaches_set source owner title) ho).always hclean
      · exact .pure (Keeps.refl _ _)
  | .nodeMaybe title, d, o, o', raw, c, ho', hc, hraw, hsub => by
      obtain ⟨hnarrows, rfl⟩ := Outlook.takeOnly_eq_some.mp ho'
      refine reads_maybe id (Cursor.eatNode_or hc) (fun t c' heat htook => ?_)
        fun heat => by rw [readPart, heat]
      refine ⟨clean t, ?_⟩
      rw [readPart, heat]
      exact hs.takes_node hraw hsub htook (htook.narrows hc hnarrows) (attaches_set source owner title)
  | .formMaybe f title, d, o, o', raw, c, ho', hc, hraw, hsub => by
      obtain ⟨hnarrows, rfl⟩ := Outlook.takeOnly_eq_some.mp ho'
      refine reads_maybe id (Cursor.eatForm_or f hc) (fun t c' heat htook => ?_)
        fun heat => by rw [readPart, heat]
      refine ⟨clean t, ?_⟩
      rw [readPart, heat]
      exact hs.takes_node hraw hsub htook (htook.narrows hc hnarrows) (attaches_set source owner title)
  | .forms f title, d, o, o', raw, c, ho', hc, hraw, hsub => by
      rw [readPart]
      exact reads_nodes ho' hc hsub (Cursor.takeNodes_some c f) fun t ht hform _ ho =>
        hs.round_attach (hraw.opened.child ht) hform (attaches_push source owner title) ho
  | .accessors f, d, o, o', raw, c, ho', hc, hraw, hsub => by
      rw [readPart]
      exact reads_nodes ho' hc hsub (Cursor.takeNodes_some c f) fun t ht hform _ ho =>
        hs.round_attach (hraw.opened.child ht) hform (attaches_setAccessor source owner) ho
  | .nodes title, d, o, o', raw, c, ho', hc, hraw, hsub => by
      rw [readPart]
      exact reads_nodes ho' hc hsub (Cursor.takeNodes_none c) fun t ht hform _ ho =>
        hs.round_attach (hraw.opened.child ht) hform (attaches_push source owner title) ho
  | .typeMembers name, d, o, o', raw, c, ho', hc, hraw, hsub => by
      rw [Survey.partAfter, Option.ite_none_right_eq_some, Bool.and_eq_true] at ho'
      obtain ⟨⟨hharmless, hlowered⟩, ho'⟩ := ho'
      rw [readPart]
      refine reads_nodes ho' hc hsub (Cursor.takeNodes_none c) fun t ht hform _ ho => ?_
      refine (hs.steps_addMember (fun n hn => ?_) (hraw.opened.child ht) hform ho).yield
      have hchild := hraw.opened.child (List.mem_of_find?_eq_some hn)
      have hname := List.find?_some hn
      rw [Cursor.isForm_eq] at hname
      obtain ⟨i, j, cs, rfl⟩ := exists_of_isForm hname
      exact ⟨⟨hchild, hs.clean_of_spares hchild hharmless⟩, hlowered⟩
  | .everything title, d, o, o', raw, c, ho', hc, hraw, hsub => by
      rw [Survey.partAfter, Option.ite_none_right_eq_some] at ho'
      obtain ⟨hadmits, ho'⟩ := ho'
      cases ho'
      refine ⟨{ c with rest := [] }, ∀ t ∈ raw.children, clean t, ?_⟩
      rw [readPart]
      refine ⟨List.mem_singleton_self _, by simp, id, fun h t ht => .inl (h t (hsub t ht)), ?_⟩
      intro draft ho
      refine Does.finish (steps_forIn (fun t ht draft ho => ?_) ho) fun _ _ hgrows =>
        .pure ⟨rfl, hgrows⟩
      have hmakes : Makes source e (clean t) (Lowering.child recur t) draft :=
        hs.makes_child (hraw.opened.child ht) (every_child hraw hadmits t ht)
      exact Makes.attachFinish hmakes (attaches_push source owner title) ho
        fun _ hgrows => .pure ⟨rfl, hgrows⟩
  | .list title, d, o, o', raw, c, ho', hc, hraw, hsub => by
      rw [readPart]
      simp only [← bind_assoc]
      refine reads_node (f := fun t => elements s.grammar recur t >>= pushAll owner title)
        isNode_of_isFormOf ho' hc hsub fun t ht hform draft ho => ?_
      obtain ⟨f, i, j, cs, rfl, hf⟩ := exists_of_isFormOf hform
      have hchild := hraw.opened.child ht
      exact hs.steps_items hf (hs.opened hchild) (fun u hu hadmits _ => hs.makes_child (hs.child hchild hu) hadmits)
        (attaches_push source owner title) ho
  | .modifiers, d, o, o', raw, c, ho', hc, hraw, hsub => by
      rw [readPart]
      refine reads_node (f := addModifiers (fun _ => false) owner)
        isNode_of_isFormOf ho' hc hsub fun t ht hform draft ho => ?_
      obtain ⟨f, i, j, cs, rfl, hf⟩ := exists_of_isFormOf hform
      have hchild := hraw.opened.child ht
      have hclean := hs.clean_of_spellsModifiers hf hchild
      exact (hs.steps_addModifiers hf hchild _ ho).iff (iff_of_true trivial hclean)
  | .propertyModifiers, d, o, o', raw, c, ho', hc, hraw, hsub => by
      rw [readPart]
      refine reads_node (f := addModifiers saysAccessors owner)
        isNode_of_isFormOf ho' hc hsub fun t ht hform draft ho => ?_
      obtain ⟨f, i, j, cs, rfl, hf⟩ := exists_of_isFormOf hform
      have hchild := hraw.opened.child ht
      have hclean := hs.clean_of_spellsModifiers hf hchild
      exact (hs.steps_addModifiers hf hchild _ ho).iff (iff_of_true trivial hclean)
  | .declarators suffix asType asNew, d, o, o', raw, c, ho', hc, hraw, hsub => by
      rw [readPart]
      refine reads_node (f := addDeclarators s.grammar recur ⟨suffix, asType, asNew⟩ owner)
        isNode_of_isFormOf ho' hc hsub fun t ht hform draft ho => ?_
      obtain ⟨f, i, j, cs, rfl, hf⟩ := exists_of_isFormOf hform
      have hharmless := hf
      simp only [Survey.declares, Bool.and_eq_true] at hharmless
      have hchild := hraw.opened.child ht
      have hclean := hs.clean_of_spares hchild hharmless.1.1.1.1.1
      exact (hs.steps_addDeclarators hf ⟨hchild, hclean⟩ ho).iff (iff_of_true trivial hclean)
  | .headerItems f title, d, o, o', raw, c, ho', hc, hraw, hsub => by
      obtain ⟨hnarrows, rfl⟩ := Outlook.takeOnly_eq_some.mp ho'
      refine reads_maybe id (Cursor.eatNode_or hc) (fun t c' heat htook => ?_)
        fun heat => by rw [readPart, heat]
      have hmem := hsub _ htook.mem
      refine ⟨clean t, ?_⟩
      rw [readPart, heat]
      obtain ⟨f', i, j, cs, rfl, hf'⟩ := exists_of_isFormOf (htook.narrows hc hnarrows)
      dsimp only
      rw [Cursor.isForm_eq]
      split
      · next hform =>
          cases of_decide_eq_true hform
          rw [if_pos rfl] at hf'
          exact hs.takes_node hraw hsub htook hf' (attaches_push source owner title)
      · next hother =>
          have hne : f' ≠ f := by
            rintro rfl
            exact hother (decide_eq_true rfl)
          rw [if_neg hne] at hf'
          rw [← bind_assoc]
          exact .take htook (fun h => h _ hmem) id fun draft ho =>
            hs.steps_expressionStatements hf' (hraw.opened.child hmem)
              (attaches_push source owner title) ho
  | .objectDefault k title, d, o, o', raw, c, ho', hc, hraw, hsub => by
      obtain rfl : o = o' := by simpa [Survey.partAfter] using ho'
      refine ⟨c, True, ?_⟩
      rw [readPart]
      refine .stay hc fun draft ho => .after (inspect_ok _) ?_
      split
      · split
        · exact Makes.attachFinish (makes_allocate _ _) (attaches_set source owner title) ho
            fun _ hgrows => .pure ⟨rfl, hgrows⟩
        · exact .pure ⟨rfl, Keeps.refl _ _⟩
      · exact .pure ⟨rfl, Keeps.refl _ _⟩
  | .impliedAccessors k, d, o, o', raw, c, ho', hc, hraw, hsub => by
      obtain rfl : o = o' := by simpa [Survey.partAfter] using ho'
      refine ⟨c, True, ?_⟩
      rw [readPart]
      refine .stay hc fun draft ho => ?_
      dsimp only
      split
      · next tk _ =>
          have hsetter : ∀ draft₁ : Draft, Grows draft.forest draft₁.forest → Does source e True
              (do
                if !((raw.children.head?.map (·.childTokens.map (·.kind))).getD []).contains
                    .kwReadonly then
                  set owner .setter (← allocate (.accessor .set) tk.span)
                return c) draft₁ fun c' draft' => c' = c ∧ Grows draft.forest draft'.forest := by
            intro draft₁ hgrows
            dsimp only
            split
            · exact Makes.attachFinish (makes_allocate _ _) (attaches_set source owner .setter)
                (ho.of_grows hgrows) fun _ hgrows' => .pure ⟨rfl, hgrows.trans hgrows'⟩
            · exact .pure ⟨rfl, hgrows⟩
          split
          · exact Makes.attachFinish (makes_allocate _ _) (attaches_set source owner .getter) ho
              fun draft₁ hgrows => hsetter draft₁ hgrows
          · exact hsetter draft (Keeps.refl _ _)
      · exact .pure ⟨rfl, Keeps.refl _ _⟩
  | .commentsAfter, d, o, o', raw, c, ho', hc, hraw, hsub => by
      obtain rfl : o = o' := by simpa [Survey.partAfter] using ho'
      refine ⟨c, True, ?_⟩
      rw [readPart]
      refine .stay hc fun draft ho => .after rfl ?_
      exact (steps_attachTrailing _ ho).andThen fun _ _ hgrows => .pure ⟨rfl, hgrows⟩
  | .given k kept parts, d, o, o', raw, c, ho', hc, hraw, hsub => by
      rw [Survey.partAfter] at ho'
      obtain ⟨inner, hinner, ho'⟩ := Option.bind_eq_some_iff.mp ho'
      cases ho'
      rw [readPart]
      rcases Cursor.eat_or k hc with ⟨tk, c₁, heat, htook⟩ | ⟨heat, hwithout⟩
      · obtain ⟨c₂, ok, hreads⟩ := readParts_reads hs parts hinner htook.foresees hraw
          fun t ht => hsub t (by rw [htook.rest]; exact List.mem_cons_of_mem _ ht)
        refine ⟨c₂, True ∧ ok, ?_⟩
        rw [heat]
        refine Reads.mono ?_ (List.subset_append_left _ _)
        cases kept with
        | none =>
            have hskip := Reads.takeThen (m := pure PUnit.unit) htook (fun _ => trivial)
              (fun _ => hs.clean_leaf tk) (fun _ _ => .pure (Keeps.refl _ _)) hreads
            simpa only [pure_bind] using hskip
        | some title =>
            exact .takeThen htook (fun _ => trivial) (fun _ => hs.clean_leaf tk)
              (fun _ ho => steps_setToken title tk ho) hreads
      · refine ⟨c, True, ?_⟩
        rw [heat]
        exact (Reads.stayPure hwithout).mono (List.subset_append_right _ _)
  | .within f parts, d, o, o', raw, c, ho', hc, hraw, hsub => by
      rw [Survey.partAfter, Option.ite_none_right_eq_some] at ho'
      obtain ⟨hopens, ho'⟩ := ho'
      cases ho'
      refine reads_maybe id (Cursor.eatForm_or f hc) (fun t c' heat htook => ?_)
        fun heat => by rw [readPart, heat]
      have hmem := hsub _ htook.mem
      refine ⟨clean t, ?_⟩
      rw [readPart, heat]
      obtain ⟨i, j, cs, rfl⟩ := exists_of_isForm htook.holds
      have hchild := hraw.opened.child hmem
      refine .take htook (fun h => h _ hmem) id fun draft ho =>
        hs.steps_opened hopens hchild (fun o'' hafter => ?_) ho
      exact readParts_reads hs parts hafter (hs.opening (hs.opened hchild)) ⟨hs.opened hchild, rfl⟩
        fun u hu => mem_children_of_mem_cursor hu
  | .withinAll f parts, d, o, o', raw, c, ho', hc, hraw, hsub => by
      rw [Survey.partAfter, Option.ite_none_right_eq_some] at ho'
      rw [readPart]
      refine reads_nodes ho'.2 hc hsub (Cursor.takeNodes_some c f) fun t ht hform _ ho => ?_
      obtain ⟨i, j, cs, rfl⟩ := exists_of_isForm hform
      have hchild := hraw.opened.child ht
      refine Does.finish (hs.steps_opened ho'.1 hchild (fun o'' hafter => ?_) ho)
        fun _ _ hgrows => .pure ⟨rfl, hgrows⟩
      exact readParts_reads hs parts hafter (hs.opening (hs.opened hchild)) ⟨hs.opened hchild, rfl⟩
        fun u hu => mem_children_of_mem_cursor hu
  | .elements _, _, _, _, _, _, ho', _, _, _ => by cases ho'
  | .ownModifiers, _, _, _, _, _, ho', _, _, _ => by cases ho'

theorem readParts_reads (hs : Setting s source e ready clean recur) : ∀ (ps : List (Part δ))
    {d : δ} {o o' : Outlook δ} {raw : RawTree δ} {c : Cursor δ}, s.partsAfter d ps o = some o' →
    o.Foresees c.rest → MatchOf s.grammar ready d raw → (∀ t ∈ c.rest, t ∈ raw.children) →
    ∃ c' ok, Reads source e clean owner raw o' c c' ok (readParts s.grammar recur owner raw c ps)
  | [], d, o, o', raw, c, ho', hc, _, _ => by
      obtain rfl : o = o' := by simpa [Survey.partsAfter] using ho'
      refine ⟨c, True, ?_⟩
      rw [readParts]
      exact .stayPure hc
  | p :: ps, d, o, o', raw, c, ho', hc, hraw, hsub => by
      rw [Survey.partsAfter] at ho'
      obtain ⟨o₁, ho₁, ho'⟩ := Option.bind_eq_some_iff.mp ho'
      obtain ⟨c₁, ok₁, h₁⟩ := readPart_reads hs p ho₁ hc hraw hsub
      obtain ⟨c₂, ok₂, h₂⟩ := readParts_reads hs ps ho' h₁.foresees hraw
        fun t ht => hsub t (h₁.subset t ht)
      refine ⟨c₂, ok₁ ∧ ok₂, ?_⟩
      rw [readParts]
      exact h₁.andThen h₂

end

end Setting

end DualSyntax.Lowering
