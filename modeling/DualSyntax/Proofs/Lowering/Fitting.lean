import DualSyntax.Proofs.Lowering.Reading

/-!
# Shapes that fit their rules

For every shape there is a condition on the rule of the match.  If it holds, the shape makes its node
of whatever children the rule spells, unless one of them holds a refused match.
-/

namespace DualSyntax.Lowering

open Forest Lower

variable {δ : Type}

namespace Survey

variable (s : Survey δ)

/-- The outlook on children that a rule spells, without the terminators. -/
def openingBy (r : Rule δ) : Outlook δ := .ofRules [r.erase s.grammar.terminators]

/-- Whether a rule spells single tokens with a property. -/
def fitsToken (p : TokenKind → Bool) (r : Rule δ) : Bool :=
  r.unit && r.every fun
    | .token k => p k
    | .node _ => false

def leaves (o : Option (Outlook δ)) : Bool := o.any (·.every s.spares)

def operandsAfter : List (List TokenKind × Title) → Outlook δ → Option (Outlook δ)
  | [], o => some o
  | (tokens, _) :: rest, o => do
    let o ← tokens.foldlM (fun o k => o.take (·.isAny [k])) o
    operandsAfter rest (← o.take (·.isFormOf s.lowered))

end Survey

namespace Setting

variable {s : Survey δ} {source : Source} {e : LowerError} {ready clean : RawTree δ → Prop}
  {recur : Recur δ} {draft : Draft} {f : Forest} {d : δ} {r : Rule δ} {i j : Nat}
  {cs : List (RawTree δ)} {o o' : Outlook δ} {c : Cursor δ} {raw t : RawTree δ}

theorem foresees_openingBy (hr : (r.erase s.grammar.terminators).productive = true)
    (hspells : Rule.Spells [r] (cs.map RawTree.symbol)) :
    (s.openingBy r).Foresees (cursor s.grammar (.node (some d) i j cs)).rest := by
  refine Outlook.foresees_ofRules (by simp [Rule.productiveAll, hr]) ?_
  rw [cursor_rest]
  exact hspells.erase s.grammar.terminators

theorem clean_iff_children (hs : Setting s source e ready clean recur) (hd : s.refusable d = false) :
    (∀ t ∈ (RawTree.node (some d) i j cs).children, clean t) ↔ clean (.node (some d) i j cs) :=
  ⟨fun h => hs.clean_node hd h, fun h _ ht => hs.clean_child h ht⟩

/-! ## Places in a match -/

/-- A place in a match up to which all children have been found clean. -/
structure Reached (g : Grammar δ) (clean : RawTree δ → Prop) (raw : RawTree δ) (o : Outlook δ)
    (c : Cursor δ) : Prop where
  foresees : o.Foresees c.rest
  subset : ∀ t ∈ c.rest, t ∈ (cursor g raw).rest
  before : ∀ t ∈ (cursor g raw).rest, clean t ∨ t ∈ c.rest

theorem Reached.start (h : o.Foresees (cursor s.grammar raw).rest) :
    Reached s.grammar clean raw o (cursor s.grammar raw) :=
  ⟨h, fun _ ht => ht, fun _ ht => .inr ht⟩

theorem Reached.narrow (h : Reached s.grammar clean raw o c) (ho' : o'.Foresees c.rest) :
    Reached s.grammar clean raw o' c :=
  { h with foresees := ho' }

theorem Reached.mono (h : Reached s.grammar clean raw o c) (hsub : o ⊆ o') :
    Reached s.grammar clean raw o' c :=
  h.narrow (h.foresees.mono hsub)

theorem Reached.mem_children (h : Reached s.grammar clean raw o c) :
    ∀ t ∈ c.rest, t ∈ raw.children :=
  fun t ht => mem_children_of_mem_cursor (h.subset t ht)

theorem Reached.took {p : Symbol δ → Bool} {c' : Cursor δ} (h : Reached s.grammar clean raw o c)
    (htook : Took p o c t c') (hclean : clean t) :
    Reached s.grammar clean raw (o.past p) c' where
  foresees := htook.foresees
  subset u hu := h.subset u (by rw [htook.rest]; exact List.mem_cons_of_mem _ hu)
  before u hu := by
    rcases h.before u hu with hu | hu
    · exact .inl hu
    · rw [htook.rest] at hu
      rcases List.mem_cons.mp hu with rfl | hu
      · exact .inl hclean
      · exact .inr hu

theorem Reached.token (hs : Setting s source e ready clean recur)
    (h : Reached s.grammar clean raw o c) {k : TokenKind} (hmust : o.must (·.isAny [k]) = true) :
    ∃ tk c', c.token k = pure (tk, c') ∧ Reached s.grammar clean raw (o.past (·.isAny [k])) c' := by
  obtain ⟨tk, c', htoken, htook⟩ := Cursor.token_must h.foresees hmust
  exact ⟨tk, c', htoken, h.took htook (hs.clean_leaf tk)⟩

theorem Reached.anyToken (hs : Setting s source e ready clean recur)
    (h : Reached s.grammar clean raw o c) (hmust : o.must (·.isToken) = true) :
    ∃ tk c', c.anyToken = pure (tk, c') ∧ Reached s.grammar clean raw (o.past (·.isToken)) c' := by
  obtain ⟨tk, c', htoken, htook⟩ := Cursor.anyToken_must h.foresees hmust
  exact ⟨tk, c', htoken, h.took htook (hs.clean_leaf tk)⟩

theorem Reached.node (hs : Setting s source e ready clean recur) (hraw : Opened s.grammar ready raw)
    (h : Reached s.grammar clean raw o c) {p : δ → Bool} (hmust : o.must (·.isFormOf p) = true) :
    ∃ t c', c.node = pure (t, c') ∧ ready t ∧ t.symbol.isFormOf p = true ∧ (clean raw → clean t) ∧
      (clean t → Reached s.grammar clean raw (o.past (·.isFormOf p)) c') := by
  obtain ⟨t, rest, hrest, htook⟩ := Cursor.took_of_must h.foresees hmust
  have hmem := h.mem_children t htook.mem
  refine ⟨t, _, Cursor.node_node hrest (isNode_of_isFormOf _ htook.holds), hraw.child hmem,
    htook.holds, fun hclean => hs.clean_child hclean hmem, fun hclean => h.took htook hclean⟩

/-- Where nothing is left but what may be left unread, all children are clean. -/
theorem Reached.children (hs : Setting s source e ready clean recur)
    (hraw : Opened s.grammar ready raw) (h : Reached s.grammar clean raw o c)
    (ho : o.every s.spares = true) : ∀ t ∈ raw.children, clean t := by
  refine hs.clean_children fun t ht => ?_
  rcases h.before t ht with hclean | hleft
  · exact hclean
  · exact hs.clean_of_spares (hraw.child (h.mem_children t hleft)) (h.foresees.every ho t hleft)

theorem Reached.finish (hs : Setting s source e ready clean recur) (hd : s.refusable d = false)
    (hready : Opened s.grammar ready (.node (some d) i j cs))
    (h : Reached s.grammar clean (.node (some d) i j cs) o c) (ho : o.every s.spares = true) :
    clean (.node (some d) i j cs) :=
  hs.clean_node hd (h.children hs hready ho)

/-! ## Operands -/

theorem exists_tokens (hs : Setting s source e ready clean recur) {ks : List TokenKind}
    (h : Reached s.grammar clean raw o c)
    (ho' : ks.foldlM (fun o k => Outlook.take o (·.isAny [k])) o = some o') :
    ∃ c', ks.foldlM (fun c k => do return (← Cursor.token c k).2) c = (pure c' : Lower (Cursor δ)) ∧
      Reached s.grammar clean raw o' c' := by
  induction ks generalizing o c with
  | nil =>
      cases ho'
      exact ⟨c, rfl, h⟩
  | cons k ks ih =>
      rw [List.foldlM_cons] at ho'
      obtain ⟨o₁, ho₁, ho'⟩ := Option.bind_eq_some_iff.mp ho'
      obtain ⟨hmust, rfl⟩ := Outlook.take_eq_some.mp ho₁
      obtain ⟨tk, c₁, htoken, h₁⟩ := h.token hs hmust
      obtain ⟨c', hc', h'⟩ := ih h₁ ho'
      refine ⟨c', ?_, h'⟩
      rw [List.foldlM_cons, htoken, ← hc']
      simp

theorem does_readOperands (hs : Setting s source e ready clean recur) (hraw : Opened s.grammar ready raw)
    {operands : List (List TokenKind × Title)} (h : Reached s.grammar clean raw o c)
    (ho' : s.operandsAfter operands o = some o') :
    ∃ ok c', (clean raw → ok) ∧ (ok → Reached s.grammar clean raw o' c') ∧ ∀ draft,
      Does source e ok (readOperands recur c operands) draft fun r draft' =>
        r.2 = c' ∧ FreshAll draft.forest draft'.forest (r.1.map (·.2)) := by
  induction operands generalizing o c with
  | nil =>
      cases ho'
      exact ⟨True, c, fun _ => trivial, fun _ => h, fun _ => .pure ⟨rfl, .nil (Keeps.refl _ _)⟩⟩
  | cons operand operands ih =>
      obtain ⟨tokens, title⟩ := operand
      obtain ⟨o₁, ho₁, ho'⟩ := Option.bind_eq_some_iff.mp ho'
      obtain ⟨o₂, ho₂, ho'⟩ := Option.bind_eq_some_iff.mp ho'
      obtain ⟨hmust, rfl⟩ := Outlook.take_eq_some.mp ho₂
      obtain ⟨c₁, htokens, h₁⟩ := exists_tokens hs h ho₁
      obtain ⟨t, c₂, hnode, hready, hform, hclean, h₂⟩ := h₁.node hs hraw hmust
      have hread : readOperands recur c ((tokens, title) :: operands) = (do
          let n ← recur t
          let found ← readOperands recur c₂ operands
          return ((title, n) :: found.1, found.2)) := by
        rw [readOperands, htokens, pure_bind, hnode, pure_bind]
      rw [hread]
      by_cases hthis : clean t
      · obtain ⟨ok, c', hok, h', hdoes⟩ := ih (h₂ hthis) ho'
        refine ⟨ok, c', hok, h', fun draft => ?_⟩
        refine ((hs.makes hready hform draft).always hthis).andThen fun n draft₁ hn => ?_
        refine (hdoes draft₁).finish fun others draft₂ hothers => .pure ⟨hothers.1, ?_⟩
        exact .cons hn hothers.2
      · refine ⟨False, c, fun h => (hthis (hclean h)).elim, False.elim, fun draft => ?_⟩
        exact ((hs.makes hready hform draft).part False.elim fun h => (hthis h).elim)

/-! ## Single children -/

theorem exists_single {p : Symbol δ → Bool} (hunit : r.unit = true) (hp : r.every p = true)
    (hspells : Rule.Spells [r] (cs.map RawTree.symbol)) : ∃ c, cs = [c] ∧ p c.symbol = true := by
  obtain ⟨a, w, hw, ha, hnil⟩ := hspells.unit hunit hp
  cases hnil.nil_inv
  obtain ⟨c, rfl, rfl⟩ := List.map_eq_singleton_iff.mp hw
  exact ⟨c, rfl, ha⟩

theorem makes_forward [DecidableEq δ] (hs : Setting s source e ready clean recur)
    (hready : Opened s.grammar ready (.node (some d) i j cs)) (hd : s.refusable d = false) (hunit : r.unit = true)
    (hadmits : r.every s.admits = true) (hspells : Rule.Spells [r] (cs.map RawTree.symbol)) :
    Makes source e (clean (.node (some d) i j cs))
      (shaped s.grammar recur (.node (some d) i j cs) .forward) draft := by
  obtain ⟨c, rfl, hc⟩ := exists_single hunit hadmits hspells
  have hmem : c ∈ (RawTree.node (some d) i j [c]).children := List.mem_singleton_self c
  refine Does.iff (hs.makes_child (hready.child hmem) hc) ⟨fun h => ?_, fun h => ?_⟩
  · exact hs.clean_node hd (by simpa using h)
  · exact hs.clean_child h hmem

/-- What is known of the node of an only child that is a match. -/
theorem does_forward [DecidableEq δ] (hs : Setting s source e ready clean recur)
    (hready : Opened s.grammar ready (.node (some d) i j [t])) (hd : s.refusable d = false)
    (ht : t.symbol.isFormOf s.lowered = true) :
    Does source e (clean (.node (some d) i j [t]))
      (shaped s.grammar recur (.node (some d) i j [t]) .forward) draft fun n draft' =>
        Fresh draft.forest draft'.forest n ∧ s.shows t draft.forest draft'.forest n := by
  have hmem : t ∈ (RawTree.node (some d) i j [t]).children := List.mem_singleton_self t
  obtain ⟨d', i', j', cs', rfl, -⟩ := exists_of_isFormOf ht
  refine (hs.does (hready.child hmem) ht draft).iff ⟨fun h => ?_, fun h => ?_⟩
  · exact hs.clean_node hd (by simpa using h)
  · exact hs.clean_child h hmem

theorem exists_leaf_of_fitsToken {p : TokenKind → Bool} (hr : Survey.fitsToken p r = true)
    (hspells : Rule.Spells [r] (cs.map RawTree.symbol)) :
    ∃ t, cs = [.leaf t] ∧ p t.kind = true := by
  rw [Survey.fitsToken, Bool.and_eq_true] at hr
  obtain ⟨c, rfl, hc⟩ := exists_single hr.1 hr.2 hspells
  cases c with
  | leaf t => exact ⟨t, rfl, hc⟩
  | node => cases hc

theorem clean_leaves (hs : Setting s source e ready clean recur) (hd : s.refusable d = false)
    (t : Token) : clean (.node (some d) i j [.leaf t]) :=
  hs.clean_node hd (by simpa using hs.clean_leaf t)

variable [DecidableEq δ]

theorem makes_name (hs : Setting s source e ready clean recur) (hd : s.refusable d = false)
    (hr : Survey.fitsToken (fun k => !s.grammar.terminators.contains k) r = true)
    (hspells : Rule.Spells [r] (cs.map RawTree.symbol)) :
    Makes source e (clean (.node (some d) i j cs))
      (shaped s.grammar recur (.node (some d) i j cs) .identifier) draft := by
  obtain ⟨t, rfl, ht⟩ := exists_leaf_of_fitsToken hr hspells
  have hcursor : (cursor s.grammar (.node (some d) i j [.leaf t])).rest = [.leaf t] := by
    simpa [cursor, RawTree.children, RawTree.token?] using ht
  rw [shaped, Cursor.anyToken_leaf hcursor]
  exact Does.iff (makes_identifier t) (iff_of_true trivial (hs.clean_leaves hd t))

theorem makes_value (hs : Setting s source e ready clean recur)
    (hready : Opened s.grammar ready (.node (some d) i j cs)) (hd : s.refusable d = false)
    (hr : Survey.fitsToken (s.literals.contains ·) r = true)
    (hspells : Rule.Spells [r] (cs.map RawTree.symbol)) :
    Makes source e (clean (.node (some d) i j cs))
      (shaped s.grammar recur (.node (some d) i j cs) .literal) draft := by
  obtain ⟨t, rfl, ht⟩ := exists_leaf_of_fitsToken hr hspells
  have hvalue := hs.literal (hready.child (List.mem_singleton_self _)) ht
  exact Does.iff (makes_literal hvalue) (iff_of_true trivial (hs.clean_leaves hd t))

theorem does_knownType (hs : Setting s source e ready clean recur) (hd : s.refusable d = false)
    (hr : Survey.fitsToken (fun k => (KnownType.ofToken? k).isSome) r = true)
    (hspells : Rule.Spells [r] (cs.map RawTree.symbol)) :
    Does source e (clean (.node (some d) i j cs))
      (shaped s.grammar recur (.node (some d) i j cs) .knownType) draft fun n draft' =>
        Fresh draft.forest draft'.forest n ∧ ∃ k, draft'.forest.kind n = .primitiveType k := by
  obtain ⟨t, rfl, ht⟩ := exists_leaf_of_fitsToken hr hspells
  obtain ⟨k, hk⟩ := Option.isSome_iff_exists.mp ht
  have hshaped : shaped s.grammar recur (.node (some d) i j [.leaf t]) .knownType =
      allocate (.primitiveType k) t.span := by
    simp [shaped, RawTree.childTokens, RawTree.children, RawTree.token?, hk]
  rw [hshaped]
  exact (does_allocate _ _).mono (iff_of_true trivial (hs.clean_leaves hd t))
    fun _ _ h => ⟨h.1, k, h.2⟩

/-! ## Nodes with parts -/

theorem exists_readParts (hs : Setting s source e ready clean recur) {parts : List (Part δ)}
    (ho' : s.partsAfter d parts o = some o')
    (hready : Opened s.grammar ready (.node (some d) i j cs))
    (hc : Reached s.grammar clean (.node (some d) i j cs) o c) (owner : NodeId) :
    ∃ ok c', (clean (.node (some d) i j cs) → ok) ∧
      (ok → Reached s.grammar clean (.node (some d) i j cs) o' c') ∧
      ∀ draft, draft.forest.IsRoot owner → Does source e ok
        (readParts s.grammar recur owner (.node (some d) i j cs) c parts) draft fun c'' draft' =>
          c'' = c' ∧ Grows draft.forest draft'.forest := by
  obtain ⟨c', ok, hreads⟩ := readParts_reads hs parts ho' hc.foresees ⟨hready, rfl⟩ hc.mem_children
  refine ⟨ok, c', fun h => hreads.enough fun t ht => hs.clean_child h ht, fun hok => ?_, hreads.does⟩
  refine ⟨hreads.foresees, fun t ht => hc.subset t (hreads.subset t ht), fun t ht => ?_⟩
  rcases hc.before t ht with hclean | ht
  · exact .inl hclean
  · exact hreads.covers hok t ht

/-- Parts that leave nothing but what may be left unread. -/
theorem steps_readParts (hs : Setting s source e ready clean recur) {parts : List (Part δ)}
    {owner : NodeId} (hfits : s.leaves (s.partsAfter d parts o) = true)
    (hready : Opened s.grammar ready (.node (some d) i j cs)) (hd : s.refusable d = false)
    (hc : Reached s.grammar clean (.node (some d) i j cs) o c) (ho : draft.forest.IsRoot owner) :
    Steps source e (clean (.node (some d) i j cs))
      (readParts s.grammar recur owner (.node (some d) i j cs) c parts) draft := by
  obtain ⟨o', hafter, hspares⟩ := (Option.any_eq_true _ _).mp hfits
  obtain ⟨ok, c', hok, hreached, hdoes⟩ := hs.exists_readParts hafter hready hc owner
  refine (hdoes draft ho).mono ⟨fun h => ?_, hok⟩ fun _ _ h => h.2
  exact (hreached h).finish hs hd hready hspares

theorem makes_build (hs : Setting s source e ready clean recur)
    (hready : Opened s.grammar ready (.node (some d) i j cs)) (hd : s.refusable d = false)
    (hopening : o.Foresees (cursor s.grammar (.node (some d) i j cs)).rest) {parts : List (Part δ)}
    (hfits : s.leaves (s.partsAfter d parts o) = true) (kind : NodeKind) :
    Makes source e (clean (.node (some d) i j cs))
      (shaped s.grammar recur (.node (some d) i j cs) (.build kind parts)) draft := by
  refine .after rfl ((makes_allocate _ _).andThen fun n draft₁ hn => ?_)
  exact (hs.steps_readParts hfits hready hd (.start hopening) hn.root).finish
    fun _ _ hgrows => .pure (hn.then_grows hgrows)

theorem makes_extend (hs : Setting s source e ready clean recur)
    (hready : Opened s.grammar ready (.node (some d) i j cs)) (hd : s.refusable d = false)
    (hopening : o.Foresees (cursor s.grammar (.node (some d) i j cs)).rest) {parts : List (Part δ)}
    (hfirst : o.must (·.isFormOf s.lowered) = true)
    (hfits : s.leaves (s.partsAfter d parts (o.past (·.isFormOf s.lowered))) = true) :
    Makes source e (clean (.node (some d) i j cs))
      (shaped s.grammar recur (.node (some d) i j cs) (.extend parts)) draft := by
  obtain ⟨first, c, hnode, hchild, hform, hclean, hreached⟩ :=
    (Reached.start hopening).node hs hready hfirst
  rw [shaped, hnode, pure_bind]
  refine (hs.makes hchild hform draft).part hclean fun hclean n draft₁ hn => ?_
  exact (hs.steps_readParts hfits hready hd (hreached hclean) hn.root).finish
    fun _ _ hgrows => .pure (hn.then_grows hgrows)

theorem makes_join (hs : Setting s source e ready clean recur)
    (hready : Opened s.grammar ready (.node (some d) i j cs)) (hd : s.refusable d = false)
    (hopening : o.Foresees (cursor s.grammar (.node (some d) i j cs)).rest)
    {operands : List (List TokenKind × Title)} {parts : List (Part δ)}
    (hfits : s.leaves (do s.partsAfter d parts (← s.operandsAfter operands o)) = true)
    (kind : NodeKind) :
    Makes source e (clean (.node (some d) i j cs))
      (shaped s.grammar recur (.node (some d) i j cs) (.join kind operands parts)) draft := by
  obtain ⟨o', hafter, hspares⟩ := (Option.any_eq_true _ _).mp hfits
  obtain ⟨o₁, ho₁, hafter⟩ := Option.bind_eq_some_iff.mp hafter
  have hfits : s.leaves (s.partsAfter d parts o₁) = true := by
    rw [hafter]
    exact hspares
  obtain ⟨ok, c, hok, hreached, hdoes⟩ := hs.does_readOperands hready (.start hopening) ho₁
  refine (hdoes draft).part hok fun hok r draft₁ hr => ?_
  obtain ⟨made, c'⟩ := r
  obtain ⟨rfl, hmade⟩ := hr
  refine .after rfl ((makes_allocate _ _).andThen fun n draft₂ hn => ?_)
  have hnew : n ∉ made.map (·.2) := fun hmem => hn.ne (hmade.root n hmem) rfl
  rw [forIn_eq_forM]
  have hplaces : ∀ x ∈ made, ∃ place, Attaches source n place ∧ set n x.1 x.2 = place x.2 :=
    fun x _ => ⟨set n x.1, attaches_set source n x.1, rfl⟩
  have hsets := steps_forM_puts (e := e) hplaces hn.root hnew (hmade.then_grows hn.grows)
  refine hsets.andThen fun _ draft₃ hsets => ?_
  have hn : Fresh draft.forest draft₃.forest n :=
    ⟨hsets.1, hsets.2.root n hnew hn.root, Nat.le_trans hmade.grows.size_le hn.new⟩
  exact (hs.steps_readParts hfits hready hd (hreached hok) hn.root).finish
    fun _ _ hgrows => .pure (hn.then_grows hgrows)

end Setting

end DualSyntax.Lowering
