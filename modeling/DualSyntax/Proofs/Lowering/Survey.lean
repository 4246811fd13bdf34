import DualSyntax.Proofs.Grammar.Outlook
import DualSyntax.Proofs.Lowering.Effects
import DualSyntax.Proofs.Packrat.Conforming

/-!
# Surveys

A survey is what is known of a grammar before any text is read: which definitions become nodes of
their own, which may be refused, which cannot contain such a match, and which tokens spell modifiers
and literals.  A setting ties it to a text that is being lowered: the nested matches become nodes
unless they hold a refused match.
-/

namespace DualSyntax.Lowering

open Forest Lower

/-- What is known of a grammar. -/
structure Survey (δ : Type) where
  grammar : Grammar δ
  /-- Definitions whose matches become nodes of their own; other matches are only opened. -/
  lowered : δ → Bool
  /-- Definitions whose matches may be refused. -/
  refusable : δ → Bool
  /-- Definitions whose matches hold no refused match. -/
  harmless : δ → Bool
  /-- The tokens that spell modifiers. -/
  modifiers : List TokenKind
  /-- The tokens that spell literals. -/
  literals : List TokenKind
  /-- What is known of the node that a match becomes, besides that it is new. -/
  shows : RawTree δ → Forest → Forest → NodeId → Prop

namespace Survey

variable {δ : Type} (s : Survey δ)

/-- Whether a child may become a node. -/
def admits : Symbol δ → Bool
  | .token _ => true
  | .node (some d) => s.lowered d
  | .node none => false

/-- Whether a child is harmless. -/
def spares : Symbol δ → Bool
  | .token _ => true
  | .node (some d) => s.harmless d
  | .node none => false

/-- The outlook on the children of a match without the terminators. -/
def opening (d : δ) : Outlook δ :=
  match s.grammar.rule d with
  | some r => .ofRules [r.erase s.grammar.terminators]
  | none => []

/-- Whether the matches of a definition are lists whose elements may become nodes and whose
separators are harmless. -/
def isList (d : δ) : Bool :=
  !s.refusable d &&
    match s.grammar.rule d with
    | some (.list e (some sep) _ _) =>
      e.unit && sep.unit && e.every s.admits && sep.every s.spares
    | some r => !r.isSeparated && r.every s.admits
    | none => false

/-- Whether all nested matches of a definition have a property. -/
def nests (p : δ → Bool) (d : δ) : Bool :=
  (s.grammar.rule d).any (·.every fun a => a.isToken || a.isFormOf p)

/-- Whether the children of the matches of a definition are modifiers. -/
def spellsModifiers (d : δ) : Bool :=
  s.harmless d && (s.grammar.rule d).any (·.every (·.isAny s.modifiers))

end Survey

/-! ## Cursors -/

section Cursors

variable {δ : Type} {g : Grammar δ} {c : Cursor δ} {t raw : RawTree δ} {rest : List (RawTree δ)}
  {k : TokenKind}

theorem cursor_rest (g : Grammar δ) (raw : RawTree δ) :
    (cursor g raw).rest.map RawTree.symbol =
      (raw.children.map RawTree.symbol).filter fun a => !a.isAny g.terminators := by
  rw [cursor, List.filter_map]
  congr 1
  refine List.filter_congr fun t _ => ?_
  cases t with
  | leaf t => simp [RawTree.token?, RawTree.symbol, Symbol.isAny]
  | node => rfl

theorem mem_children_of_mem_cursor (h : t ∈ (cursor g raw).rest) : t ∈ raw.children :=
  (List.mem_filter.mp h).1

theorem mem_cursor_or_leaf (g : Grammar δ) (h : t ∈ raw.children) :
    t ∈ (cursor g raw).rest ∨ ∃ tk, t = .leaf tk := by
  cases t with
  | leaf tk => exact .inr ⟨tk, rfl⟩
  | node => exact .inl (List.mem_filter.mpr ⟨h, rfl⟩)

theorem exists_leaf (h : t.symbol.isToken = true) : ∃ tk, t = .leaf tk := by
  cases t with
  | leaf tk => exact ⟨tk, rfl⟩
  | node => cases h

theorem leaf_of_isAny {ks : List TokenKind} (h : t.symbol.isAny ks = true) :
    ∃ tk, t = .leaf tk ∧ ks.contains tk.kind = true := by
  cases t with
  | leaf tk => exact ⟨tk, rfl, h⟩
  | node => cases h

theorem exists_of_isFormOf {p : δ → Bool} (h : t.symbol.isFormOf p = true) :
    ∃ d i j cs, t = .node (some d) i j cs ∧ p d = true := by
  cases t with
  | leaf => cases h
  | node f i j cs =>
      cases f with
      | none => cases h
      | some d => exact ⟨d, i, j, cs, rfl, h⟩

theorem exists_of_isForm [DecidableEq δ] {d : δ} (h : t.symbol.isForm d = true) :
    ∃ i j cs, t = .node (some d) i j cs := by
  have hsymbol : t.symbol = .node (some d) := of_decide_eq_true h
  cases t with
  | leaf => cases hsymbol
  | node f i j cs =>
      cases hsymbol
      exact ⟨i, j, cs, rfl⟩

theorem isNode_of_isFormOf {p : δ → Bool} (a : Symbol δ) (h : a.isFormOf p = true) :
    a.isNode = true := by
  cases a with
  | token => cases h
  | node => rfl

theorem isNode_of_isForm [DecidableEq δ] {d : δ} (a : Symbol δ) (h : a.isForm d = true) : a.isNode = true := by
  rw [of_decide_eq_true h]
  rfl

namespace Cursor

theorem eatAny_leaf {tk : Token} {ks : List TokenKind} (h : c.rest = .leaf tk :: rest)
    (hk : ks.contains tk.kind = true) : c.eatAny ks = (some tk, { c with rest }) := by
  unfold eatAny
  rw [h]
  simp only [hk, if_true]

theorem eatAny_none {ks : List TokenKind} (h : ∀ t ∈ c.rest.head?, t.symbol.isAny ks = false) :
    c.eatAny ks = (none, c) := by
  unfold eatAny
  match hrest : c.rest with
  | [] => rfl
  | .node .. :: rest => rfl
  | .leaf tk :: rest =>
      have hk : ks.contains tk.kind = false := h (.leaf tk) (by rw [hrest]; rfl)
      simp only [hk, Bool.false_eq_true, if_false]

theorem eat_leaf {tk : Token} (h : c.rest = .leaf tk :: rest) (hk : tk.kind = k) :
    c.eat k = (some tk, { c with rest }) :=
  eatAny_leaf h (by simp [hk])

theorem eatNode_node (h : c.rest = t :: rest) (ht : t.symbol.isNode = true) :
    c.eatNode = (some t, { c with rest }) := by
  cases t with
  | leaf => cases ht
  | node => simp [eatNode, h]

theorem eatNode_none (h : ∀ t ∈ c.rest.head?, t.symbol.isNode = false) :
    c.eatNode = (none, c) := by
  unfold eatNode
  match hrest : c.rest with
  | [] => rfl
  | .leaf _ :: rest => rfl
  | .node f i j cs :: rest =>
      have hnode : (Symbol.node f).isNode = false := h (.node f i j cs) (by rw [hrest]; rfl)
      cases hnode

theorem eat_subset (c : Cursor δ) (k : TokenKind) : ∀ t ∈ (c.eat k).2.rest, t ∈ c.rest := by
  unfold eat eatAny
  split
  · next h =>
      split
      · rw [h]
        exact fun t ht => List.mem_cons_of_mem _ ht
      · exact fun t ht => ht
  · exact fun t ht => ht

theorem token_leaf {tk : Token} (h : c.rest = .leaf tk :: rest) (hk : tk.kind = k) :
    c.token k = pure (tk, { c with rest }) := by
  simp [token, eat_leaf h hk]

theorem anyToken_leaf {tk : Token} (h : c.rest = .leaf tk :: rest) :
    c.anyToken = pure (tk, { c with rest }) := by
  simp [anyToken, h]

theorem node_node (h : c.rest = t :: rest) (ht : t.symbol.isNode = true) :
    c.node = pure (t, { c with rest }) := by
  simp [node, eatNode_node h ht]

variable [DecidableEq δ]

theorem isForm_eq (d : δ) (t : RawTree δ) : t.isForm d = t.symbol.isForm d := by
  cases t with
  | leaf => simp [RawTree.isForm, RawTree.symbol, Symbol.isForm]
  | node f i j cs =>
      cases f with
      | none => simp [RawTree.isForm, RawTree.symbol, Symbol.isForm]
      | some e =>
          by_cases h : d = e <;>
            simp [RawTree.isForm, RawTree.symbol, Symbol.isForm, h, Ne.symm]

theorem eatForm_form {d : δ} (h : c.rest = t :: rest) (ht : t.symbol.isForm d = true) :
    c.eatForm d = (some t, { c with rest }) := by
  simp [eatForm, h, isForm_eq, ht]

theorem eatForm_none {d : δ} (h : ∀ t ∈ c.rest.head?, t.symbol.isForm d = false) :
    c.eatForm d = (none, c) := by
  unfold eatForm
  match hrest : c.rest with
  | [] => rfl
  | t :: rest =>
      have ht : t.symbol.isForm d = false := h t (by rw [hrest]; rfl)
      simp [isForm_eq, ht]

theorem eatForm_subset (c : Cursor δ) (d : δ) : ∀ t ∈ (c.eatForm d).2.rest, t ∈ c.rest := by
  unfold eatForm
  split
  · next h =>
      split
      · rw [h]
        exact fun t ht => List.mem_cons_of_mem _ ht
      · exact fun t ht => ht
  · exact fun t ht => ht

theorem mem_of_eatForm {d : δ} (h : (c.eatForm d).1 = some t) :
    t ∈ c.rest ∧ t.symbol = .node (some d) := by
  unfold eatForm at h
  split at h
  · next hrest =>
      split at h
      · next hform =>
          cases h
          rw [isForm_eq] at hform
          exact ⟨by simp [hrest], of_decide_eq_true hform⟩
      · cases h
  · cases h

theorem takeNodes_none (c : Cursor δ) :
    c.takeNodes none = (c.rest.takeWhile (·.symbol.isNode),
      { c with rest := c.rest.dropWhile (·.symbol.isNode) }) := by
  have hwanted : (fun raw : RawTree δ => raw.token?.isNone && (none : Option δ).all fun d =>
      raw.isForm d) = fun raw => raw.symbol.isNode := by
    funext raw
    cases raw <;> rfl
  simp only [takeNodes, hwanted]

theorem takeNodes_some (c : Cursor δ) (d : δ) :
    c.takeNodes (some d) = (c.rest.takeWhile (·.symbol.isForm d),
      { c with rest := c.rest.dropWhile (·.symbol.isForm d) }) := by
  have hwanted : (fun raw : RawTree δ => raw.token?.isNone && (some d).all fun d =>
      raw.isForm d) = fun raw => raw.symbol.isForm d := by
    funext raw
    cases raw with
    | leaf => simp [RawTree.token?, RawTree.symbol, Symbol.isForm]
    | node => simp [RawTree.token?, isForm_eq]
  simp only [takeNodes, hwanted]

end Cursor

end Cursors

/-! ## Cursors under an outlook -/

/-- A child that has a property was taken from a cursor. -/
structure Took {δ : Type} (p : Symbol δ → Bool) (o : Outlook δ) (c : Cursor δ) (t : RawTree δ)
    (c' : Cursor δ) : Prop where
  rest : c.rest = t :: c'.rest
  holds : p t.symbol = true
  foresees : (o.past p).Foresees c'.rest

theorem Took.mem {δ : Type} {p : Symbol δ → Bool} {o : Outlook δ} {c c' : Cursor δ} {t : RawTree δ}
    (h : Took p o c t c') : t ∈ c.rest := by
  rw [h.rest]
  exact List.mem_cons_self ..

theorem Took.narrows {δ : Type} {p q : Symbol δ → Bool} {o : Outlook δ} {c c' : Cursor δ}
    {t : RawTree δ} (h : Took p o c t c') (hc : o.Foresees c.rest) (ho : o.narrows p q = true) :
    q t.symbol = true := by
  rw [h.rest] at hc
  exact hc.narrows ho h.holds

namespace Cursor

variable {δ : Type} {c : Cursor δ} {o : Outlook δ} {k : TokenKind} {t : RawTree δ}

theorem took_of_must {p : Symbol δ → Bool} (h : o.Foresees c.rest) (hmust : o.must p = true) :
    ∃ t rest, c.rest = t :: rest ∧ Took p o c t { c with rest } := by
  obtain ⟨t, rest, hrest, ht⟩ := h.of_must hmust
  rw [hrest] at h
  exact ⟨t, rest, hrest, hrest, ht, h.past ht⟩

theorem took_or {p : Symbol δ → Bool} (h : o.Foresees c.rest) :
    (∃ t rest, c.rest = t :: rest ∧ Took p o c t { c with rest }) ∨
      (∀ t ∈ c.rest.head?, p t.symbol = false) ∧ (o.without p).Foresees c.rest := by
  cases hrest : c.rest with
  | nil => exact .inr ⟨by simp, (hrest ▸ h).without (by simp)⟩
  | cons t rest =>
      rw [hrest] at h
      cases hp : p t.symbol with
      | true => exact .inl ⟨t, rest, rfl, hrest, hp, h.past hp⟩
      | false =>
          have hhead : ∀ u ∈ (t :: rest).head?, p u.symbol = false := by simpa using hp
          exact .inr ⟨hhead, h.without hhead⟩

theorem token_must (h : o.Foresees c.rest) (hmust : o.must (·.isAny [k]) = true) :
    ∃ tk c', c.token k = pure (tk, c') ∧ Took (·.isAny [k]) o c (.leaf tk) c' := by
  obtain ⟨t, rest, hrest, htook⟩ := took_of_must h hmust
  obtain ⟨tk, rfl, hk⟩ := leaf_of_isAny htook.holds
  exact ⟨tk, _, token_leaf hrest (by simpa using hk), htook⟩

theorem anyToken_must (h : o.Foresees c.rest) (hmust : o.must (·.isToken) = true) :
    ∃ tk c', c.anyToken = pure (tk, c') ∧ Took (·.isToken) o c (.leaf tk) c' := by
  obtain ⟨t, rest, hrest, htook⟩ := took_of_must h hmust
  obtain ⟨tk, rfl⟩ := exists_leaf htook.holds
  exact ⟨tk, _, anyToken_leaf hrest, htook⟩

theorem eatAny_or (ks : List TokenKind) (h : o.Foresees c.rest) :
    (∃ tk c', c.eatAny ks = (some tk, c') ∧ Took (·.isAny ks) o c (.leaf tk) c') ∨
      c.eatAny ks = (none, c) ∧ (o.without (·.isAny ks)).Foresees c.rest := by
  rcases took_or (p := (·.isAny ks)) h with ⟨t, rest, hrest, htook⟩ | ⟨hhead, hforesees⟩
  · obtain ⟨tk, rfl, hk⟩ := leaf_of_isAny htook.holds
    exact .inl ⟨tk, _, eatAny_leaf hrest hk, htook⟩
  · exact .inr ⟨eatAny_none hhead, hforesees⟩

theorem eat_or (k : TokenKind) (h : o.Foresees c.rest) :
    (∃ tk c', c.eat k = (some tk, c') ∧ Took (·.isAny [k]) o c (.leaf tk) c') ∨
      c.eat k = (none, c) ∧ (o.without (·.isAny [k])).Foresees c.rest :=
  eatAny_or [k] h

theorem eatNode_or (h : o.Foresees c.rest) :
    (∃ t c', c.eatNode = (some t, c') ∧ Took (·.isNode) o c t c') ∨
      c.eatNode = (none, c) ∧ (o.without (·.isNode)).Foresees c.rest := by
  rcases took_or (p := (·.isNode)) h with ⟨t, rest, hrest, htook⟩ | ⟨hhead, hforesees⟩
  · exact .inl ⟨t, _, eatNode_node hrest htook.holds, htook⟩
  · exact .inr ⟨eatNode_none hhead, hforesees⟩

theorem eatForm_or [DecidableEq δ] (d : δ) (h : o.Foresees c.rest) :
    (∃ t c', c.eatForm d = (some t, c') ∧ Took (·.isForm d) o c t c') ∨
      c.eatForm d = (none, c) ∧ (o.without (·.isForm d)).Foresees c.rest := by
  rcases took_or (p := (·.isForm d)) h with ⟨t, rest, hrest, htook⟩ | ⟨hhead, hforesees⟩
  · exact .inl ⟨t, _, eatForm_form hrest htook.holds, htook⟩
  · exact .inr ⟨eatForm_none hhead, hforesees⟩

theorem foresees_eat (k : TokenKind) (h : o.Foresees c.rest) :
    (o.takeMaybe (·.isAny [k])).Foresees (c.eat k).2.rest := by
  rcases eat_or k h with ⟨tk, c', heat, htook⟩ | ⟨heat, hwithout⟩ <;> rw [heat]
  · exact htook.foresees.mono (List.subset_append_left _ _)
  · exact hwithout.mono (List.subset_append_right _ _)

theorem foresees_eatForm [DecidableEq δ] (d : δ) (h : o.Foresees c.rest) :
    (o.takeMaybe (·.isForm d)).Foresees (c.eatForm d).2.rest := by
  rcases eatForm_or d h with ⟨t, c', heat, htook⟩ | ⟨heat, hwithout⟩ <;> rw [heat]
  · exact htook.foresees.mono (List.subset_append_left _ _)
  · exact hwithout.mono (List.subset_append_right _ _)

end Cursor

/-- The children of a match are as the rule of its definition says. -/
theorem Survey.foresees_opening {δ : Type} (s : Survey δ) {d : δ} {i j : Nat} {cs : List (RawTree δ)}
    (hproductive : ∀ d r, s.grammar.rule d = some r → (r.erase s.grammar.terminators).productive = true)
    (ht : Conforms s.grammar (.node (some d) i j cs)) :
    (s.opening d).Foresees (cursor s.grammar (.node (some d) i j cs)).rest := by
  cases ht with
  | node hrule hspells _ =>
      rw [Survey.opening, hrule]
      refine Outlook.foresees_ofRules ?_ ?_
      · simp [Rule.productiveAll, hproductive d _ hrule]
      · rw [cursor_rest]
        exact hspells.erase s.grammar.terminators

/-! ## Settings -/

/-- A match whose children lowering may go through. -/
structure Opened {δ : Type} (g : Grammar δ) (ready : RawTree δ → Prop) (t : RawTree δ) : Prop where
  conforms : Conforms g t
  child : ∀ {c}, c ∈ t.children → ready c

/-- A text that is being lowered.  `ready` holds of the matches that lowering goes through, `clean`
of those that hold no refused match. -/
structure Setting {δ : Type} (s : Survey δ) (source : Source) (e : LowerError)
    (ready clean : RawTree δ → Prop) (recur : Recur δ) : Prop where
  conforms : ∀ {t}, ready t → Conforms s.grammar t
  child : ∀ {t c}, ready t → c ∈ t.children → ready c
  modifier : ∀ {t : Token}, ready (.leaf t) → s.modifiers.contains t.kind = true →
    (source.language.modifier? t.text).isSome = true
  literal : ∀ {t : Token}, ready (.leaf t) → s.literals.contains t.kind = true →
    (literalValue? t).isSome = true
  does : ∀ {t}, ready t → t.symbol.isFormOf s.lowered = true → ∀ draft,
    Does source e (clean t) (recur t) draft fun n draft' =>
      Fresh draft.forest draft'.forest n ∧ s.shows t draft.forest draft'.forest n
  productive : ∀ d r, s.grammar.rule d = some r →
    (r.erase s.grammar.terminators).productive = true
  clean_leaf : ∀ t, clean (.leaf t)
  clean_child : ∀ {t c}, clean t → c ∈ t.children → clean c
  clean_node : ∀ {d i j cs}, s.refusable d = false → (∀ c ∈ cs, clean c) →
    clean (.node (some d) i j cs)
  clean_of_spares : ∀ {t}, ready t → s.spares t.symbol = true → clean t

namespace Setting

variable {δ : Type} {s : Survey δ} {source : Source} {e : LowerError}
  {ready clean : RawTree δ → Prop} {recur : Recur δ} {draft : Draft} {owner n : NodeId}
  {d : δ} {i j : Nat} {cs : List (RawTree δ)} {t : RawTree δ}

theorem makes (hs : Setting s source e ready clean recur) (ht : ready t)
    (hform : t.symbol.isFormOf s.lowered = true) (draft : Draft) :
    Makes source e (clean t) (recur t) draft :=
  (hs.does ht hform draft).imp fun _ _ h => h.1

theorem opened (hs : Setting s source e ready clean recur) (ht : ready t) :
    Opened s.grammar ready t :=
  ⟨hs.conforms ht, fun hc => hs.child ht hc⟩

theorem exists_form (hs : Setting s source e ready clean recur) (ht : ready t)
    (hnode : t.symbol.isNode = true) : ∃ d i j cs, t = .node (some d) i j cs := by
  cases hs.conforms ht with
  | leaf => cases hnode
  | node => exact ⟨_, _, _, _, rfl⟩

theorem makes_child (hs : Setting s source e ready clean recur) (ht : ready t)
    (hadmits : s.admits t.symbol = true) :
    Makes source e (clean t) (Lowering.child recur t) draft := by
  cases t with
  | leaf tk => exact (makes_token tk).iff (iff_of_true trivial (hs.clean_leaf tk))
  | node f i j cs =>
      cases f with
      | none => cases hadmits
      | some d => exact hs.makes ht hadmits draft

theorem opening (hs : Setting s source e ready clean recur)
    (ht : Opened s.grammar ready (.node (some d) i j cs)) :
    (s.opening d).Foresees (cursor s.grammar (.node (some d) i j cs)).rest :=
  s.foresees_opening hs.productive ht.conforms

theorem clean_children (hs : Setting s source e ready clean recur)
    (h : ∀ c ∈ (cursor s.grammar t).rest, clean c) : ∀ c ∈ t.children, clean c := by
  intro c hc
  rcases mem_cursor_or_leaf s.grammar hc with hc | ⟨tk, rfl⟩
  · exact h c hc
  · exact hs.clean_leaf tk

theorem form_of_nests (hs : Setting s source e ready clean recur) {p : δ → Bool}
    (hd : s.nests p d = true) (ht : ready (.node (some d) i j cs)) {c : RawTree δ} (hc : c ∈ cs)
    (hnode : c.symbol.isNode = true) :
    ∃ d' i' j' cs', c = .node (some d') i' j' cs' ∧ p d' = true := by
  obtain ⟨d', i', j', cs', rfl⟩ := hs.exists_form (hs.child ht hc) hnode
  refine ⟨d', i', j', cs', rfl, ?_⟩
  cases hs.conforms ht with
  | node hrule hspells _ =>
      simp only [Survey.nests, hrule, Option.any_some] at hd
      have hform := hspells.every (by simpa [Rule.everyAll] using hd) _ (List.mem_map_of_mem hc)
      simpa [RawTree.symbol, Symbol.isToken, Symbol.isFormOf] using hform

/-- A match that may be lowered. -/
structure Fine (ready clean : RawTree δ → Prop) (t : RawTree δ) : Prop where
  ready : ready t
  clean : clean t

theorem fine_cursor (hs : Setting s source e ready clean recur) (ht : Fine ready clean t) :
    ∀ c ∈ (cursor s.grammar t).rest, Fine ready clean c := by
  intro c hc
  have hmem := mem_children_of_mem_cursor hc
  exact ⟨hs.child ht.ready hmem, hs.clean_child ht.clean hmem⟩

theorem fine_took {p : Symbol δ → Bool} {o : Outlook δ} {c c' : Cursor δ}
    (h : ∀ t ∈ c.rest, Fine ready clean t) (htook : Took p o c t c') :
    Fine ready clean t ∧ ∀ t ∈ c'.rest, Fine ready clean t := by
  rwa [htook.rest, List.forall_mem_cons] at h

/-! ### Lists -/

theorem mem_alternate {ts : List (RawTree δ)} :
    t ∈ ts ↔ t ∈ (RawTree.alternate ts).1 ∨ t ∈ (RawTree.alternate ts).2 := by
  induction ts with
  | nil => simp [RawTree.alternate]
  | cons u ts ih =>
      rw [RawTree.alternate, List.mem_cons, List.mem_cons, ih, or_assoc]
      exact or_congr_right or_comm

theorem alternate_of_alternates {p q : Symbol δ → Bool} {ts : List (RawTree δ)}
    (h : Rule.Alternates p q (ts.map RawTree.symbol)) :
    (∀ t ∈ (RawTree.alternate ts).1, p t.symbol = true) ∧
      ∀ t ∈ (RawTree.alternate ts).2, q t.symbol = true := by
  induction ts generalizing p q with
  | nil => simp [RawTree.alternate]
  | cons u ts ih =>
      obtain ⟨hp, hrest⟩ := h
      obtain ⟨hodd, heven⟩ := ih hrest
      exact ⟨List.forall_mem_cons.mpr ⟨hp, heven⟩, hodd⟩

theorem mem_children_of_mem_items {g : Grammar δ} {c : RawTree δ} (h : c ∈ (t.listItems g).1) :
    c ∈ t.children := by
  unfold RawTree.listItems at h
  split at h
  · split at h
    · exact mem_alternate.mpr (.inl h)
    · exact h
  · exact h

/-- The elements of a list may become nodes, and its separators are harmless. -/
theorem items_of_isList (hd : s.isList d = true)
    (ht : Opened s.grammar ready (.node (some d) i j cs)) :
    (∀ c ∈ ((RawTree.node (some d) i j cs).listItems s.grammar).1, s.admits c.symbol = true) ∧
      ∀ c ∈ cs, c ∈ ((RawTree.node (some d) i j cs).listItems s.grammar).1 ∨
        s.spares c.symbol = true := by
  cases ht.conforms with
  | @node _ _ _ _ r hrule hspells _ =>
      simp only [Survey.isList, hrule, Bool.and_eq_true] at hd
      simp only [RawTree.listItems, hrule, Option.any_some]
      cases hr : r.isSeparated with
      | false =>
          have hadmits : r.every s.admits = true := by
            cases r with
            | list el sep least trailing =>
                cases sep with
                | some => cases hr
                | none => exact (Bool.and_eq_true .. ▸ hd.2).2
            | _ => exact (Bool.and_eq_true .. ▸ hd.2).2
          rw [if_neg (by simp)]
          refine ⟨fun c hc => ?_, fun c hc => .inl hc⟩
          exact hspells.every (by simp [Rule.everyAll, hadmits]) _ (List.mem_map_of_mem hc)
      | true =>
          rw [if_pos rfl]
          cases r with
          | list el sep least trailing =>
              cases sep with
              | none => cases hr
              | some sep =>
                  simp only [Bool.and_eq_true] at hd
                  obtain ⟨-, ⟨⟨hel, hsep⟩, hadmits⟩, hspares⟩ := hd
                  have halt := alternate_of_alternates (hspells.alternates hel hsep hadmits hspares)
                  refine ⟨halt.1, fun c hc => ?_⟩
                  exact (mem_alternate.mp hc).imp_right (halt.2 c)
          | _ => cases hr

theorem clean_items (hs : Setting s source e ready clean recur) (hd : s.isList d = true)
    (ht : Opened s.grammar ready (.node (some d) i j cs)) :
    (∀ c ∈ ((RawTree.node (some d) i j cs).listItems s.grammar).1, clean c) ↔
      clean (.node (some d) i j cs) := by
  refine ⟨fun h => ?_, fun h c hc => hs.clean_child h (mem_children_of_mem_items hc)⟩
  have hd' := hd
  simp only [Survey.isList, Bool.and_eq_true, Bool.not_eq_true'] at hd'
  refine hs.clean_node hd'.1 fun c hc => ?_
  rcases (items_of_isList hd ht).2 c hc with hc | hspares
  · exact h c hc
  · exact hs.clean_of_spares (ht.child hc) hspares

theorem does_items (hs : Setting s source e ready clean recur) (hd : s.isList d = true)
    (ht : Opened s.grammar ready (.node (some d) i j cs)) {make : RawTree δ → Lower NodeId}
    (hmake : ∀ c ∈ cs, s.admits c.symbol = true → ∀ draft,
      Makes source e (clean c) (make c) draft) :
    Does source e (clean (.node (some d) i j cs))
      (((RawTree.node (some d) i j cs).listItems s.grammar).1.mapM make) draft
      fun ns draft' => FreshAll draft.forest draft'.forest ns := by
  refine (does_mapM fun c hc draft => ?_).iff (hs.clean_items hd ht)
  exact hmake c (mem_children_of_mem_items hc) ((items_of_isList hd ht).1 c hc) draft

theorem steps_items (hs : Setting s source e ready clean recur) (hd : s.isList d = true)
    (ht : Opened s.grammar ready (.node (some d) i j cs)) {make : RawTree δ → Lower NodeId}
    (hmake : ∀ c ∈ cs, s.admits c.symbol = true → ∀ draft,
      Makes source e (clean c) (make c) draft)
    {put : NodeId → Lower Unit} (hput : Attaches source owner put)
    (ho : draft.forest.IsRoot owner) :
    Steps source e (clean (.node (some d) i j cs))
      (do (← ((RawTree.node (some d) i j cs).listItems s.grammar).1.mapM make).forM put) draft :=
  (hs.does_items hd ht hmake).finish fun _ _ hns => steps_forM_fresh hput ho hns

theorem does_elements (hs : Setting s source e ready clean recur) (hd : s.isList d = true)
    (ht : Opened s.grammar ready (.node (some d) i j cs)) :
    Does source e (clean (.node (some d) i j cs))
      (elements s.grammar recur (.node (some d) i j cs)) draft
      fun ns draft' => FreshAll draft.forest draft'.forest ns :=
  hs.does_items hd ht fun _ hc hadmits _ => hs.makes_child (ht.child hc) hadmits

/-- The elements of a list are put below a new node. -/
theorem does_pushElements (hs : Setting s source e ready clean recur) (hd : s.isList d = true)
    (ht : Fine ready clean (.node (some d) i j cs)) {f : Forest} (hn : Fresh f draft.forest n)
    (title : Title) :
    Does source e True (do
      pushAll n title (← elements s.grammar recur (.node (some d) i j cs))
      return some n) draft fun r draft' => FreshMaybe f draft'.forest r := by
  refine ((hs.does_elements hd (hs.opened ht.ready)).always ht.clean).andThen fun ns draft₁ hns => ?_
  refine (steps_forM_fresh (attaches_push source n title) hn.root hns).andThen
    fun _ draft₂ hgrows => ?_
  exact .pure (.some (hn.then_grows hgrows))

theorem makes_arrayOf {f : Forest} {m : NodeId} (hm : Fresh f draft.forest m) (rank : RawTree δ)
    (span : Span) :
    Does source e True (arrayOf s.grammar m rank span) draft fun n draft' =>
      Fresh f draft'.forest n :=
  (does_wrap source e hm _ _ _).imp fun _ _ h => h.fresh

/-! ### Comments and modifiers -/

theorem does_commentNodes (breaks threshold : Nat) (ts : List Trivia) :
    Does source e True (commentNodes breaks threshold ts) draft fun r draft' =>
      FreshAll draft.forest draft'.forest r.1 := by
  induction ts generalizing breaks threshold draft with
  | nil => exact .pure (.nil (Keeps.refl _ _))
  | cons t ts ih =>
      rw [commentNodes]
      cases commentKind? t.kind with
      | none => exact ih _ _
      | some kind =>
          have hrest : ∀ (blank : List NodeId) (draft₁ : Draft),
              FreshAll draft.forest draft₁.forest blank → Does source e True (do
                let comment ← allocate (commentNode kind t.text) t.span
                let found ← commentNodes 0 2 ts
                return (blank ++ comment :: found.1, found.2)) draft₁ fun r draft' =>
                  FreshAll draft.forest draft'.forest r.1 := by
            intro blank draft₁ hblank
            refine (makes_allocate _ _).andThen fun comment draft₂ hcomment => ?_
            refine (ih 0 2).andThen fun r draft₃ hmore => ?_
            exact .pure (hblank.append (.cons hcomment hmore))
          dsimp only
          split
          · refine (makes_allocate _ _).andThen fun n draft₁ hn => .after rfl ?_
            exact hrest [n] draft₁ (.cons hn (.nil (Keeps.refl _ _)))
          · exact .after rfl (hrest [] draft (.nil (Keeps.refl _ _)))

theorem steps_attachTrailing (trivia : List Trivia) (ho : draft.forest.IsRoot owner) :
    Steps source e True (attachTrailing owner trivia) draft := by
  refine .after rfl ((does_commentNodes _ _ _).andThen fun r draft' hns => ?_)
  obtain ⟨ns, rest⟩ := r
  dsimp only
  rw [forIn_eq_forM]
  exact (steps_forM_fresh (attaches_push source owner .trailingTrivia) ho hns).andThen
    fun _ _ hgrows => .pure hgrows

theorem steps_attachLeading (raw : RawTree δ) (ho : draft.forest.IsRoot owner) :
    Steps source e True (attachLeading owner raw) draft := by
  refine .after rfl ((does_commentNodes _ _ _).andThen fun r draft₁ hns => ?_)
  obtain ⟨ns, breaks, threshold⟩ := r
  have hrest : ∀ (blank : List NodeId) (draft₂ : Draft),
      FreshAll draft₁.forest draft₂.forest blank → Does source e True (do
        for n in ns ++ blank do push owner .leadingTrivia n) draft₂ fun _ draft' =>
          Grows draft.forest draft'.forest := by
    intro blank draft₂ hblank
    rw [forIn_eq_forM]
    exact (steps_forM_fresh (attaches_push source owner .leadingTrivia) ho (hns.append hblank)).andThen
      fun _ _ hgrows => .pure hgrows
  dsimp only
  split
  · refine (makes_allocate _ _).andThen fun n draft₂ hn => .after rfl ?_
    exact hrest [n] draft₂ (.cons hn (.nil (Keeps.refl _ _)))
  · exact .after rfl (hrest [] draft₁ (.nil (Keeps.refl _ _)))

theorem clean_of_spellsModifiers (hs : Setting s source e ready clean recur)
    (hd : s.spellsModifiers d = true) (ht : ready (.node (some d) i j cs)) :
    clean (.node (some d) i j cs) := by
  rw [Survey.spellsModifiers, Bool.and_eq_true] at hd
  exact hs.clean_of_spares ht hd.1

theorem steps_addModifiers (hs : Setting s source e ready clean recur)
    (hd : s.spellsModifiers d = true) (ht : ready (.node (some d) i j cs)) (drop : Modifier → Bool)
    (ho : draft.forest.IsRoot owner) :
    Steps source e True (addModifiers drop owner (.node (some d) i j cs)) draft := by
  have htokens : ∀ t ∈ (RawTree.node (some d) i j cs).childTokens,
      (source.language.modifier? t.text).isSome = true := by
    intro t ht'
    obtain ⟨c, hc, hleaf⟩ := List.mem_filterMap.mp ht'
    obtain ⟨tk, rfl⟩ : ∃ tk, c = .leaf tk := by
      cases c with
      | leaf tk => exact ⟨tk, rfl⟩
      | node => cases hleaf
    cases hleaf
    refine hs.modifier (hs.child ht hc) ?_
    cases hs.conforms ht with
    | node hrule hspells _ =>
        simp only [Survey.spellsModifiers, hrule, Option.any_some, Bool.and_eq_true] at hd
        have hevery := hspells.every (p := fun a => a.isAny s.modifiers)
          (by simp [Rule.everyAll, hd.2]) _ (List.mem_map_of_mem hc)
        exact hevery
  refine steps_foldlM (fun t ht' dropped draft ho => ?_) [] ho
  refine (makes_modifier (htokens t ht')).andThen fun n draft' hn => .after rfl ?_
  split
  · split
    · exact .pure hn.grows
    · exact ((attaches_push source owner .modifiers).does_fresh ho hn).andThen
        fun _ _ hgrows => .pure hgrows
  · exact .pure hn.grows

end Setting

end DualSyntax.Lowering
