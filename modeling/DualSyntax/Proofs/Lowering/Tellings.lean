import DualSyntax.Proofs.Lowering.Agreement
import DualSyntax.Proofs.Lowering.InnerShapes

/-!
# What lowering tells of

Lowering goes through nested matches one after the other, and whatever it reports about them stands in
the order of the text.  So the diagnostics of some trees, one after the other, are those of their
nodes, each as often as it is reported about its node (`Told`).  Harmless matches are told nothing of,
and the parts that take the children of a match as they come tell of all of them (`tells_readParts`).
-/

namespace DualSyntax

variable {δ : Type}

namespace RawTree

theorem nodesOf_append (ts us : List (RawTree δ)) : nodesOf (ts ++ us) = nodesOf ts ++ nodesOf us := by
  induction ts with
  | nil => rfl
  | cons t ts ih => simp [nodesOf, ih]

mutual

theorem forall_nodes {T : RawTree δ → Prop} (hchild : ∀ {t c}, T t → c ∈ t.children → T c) :
    ∀ {t : RawTree δ}, T t → ∀ u ∈ t.nodes, T u
  | .leaf _, _ => by simp [nodes]
  | .node form i j cs, ht => by
      rw [nodes, List.forall_mem_cons]
      exact ⟨ht, forall_nodesOf hchild fun c hc => hchild ht hc⟩

theorem forall_nodesOf {T : RawTree δ → Prop} (hchild : ∀ {t c}, T t → c ∈ t.children → T c) :
    ∀ {ts : List (RawTree δ)}, (∀ t ∈ ts, T t) → ∀ u ∈ nodesOf ts, T u
  | [], _ => by simp [nodesOf]
  | t :: ts, hts => by
      rw [List.forall_mem_cons] at hts
      rw [nodesOf, List.forall_mem_append]
      exact ⟨forall_nodes hchild hts.1, forall_nodesOf hchild hts.2⟩

end

end RawTree

/-- Diagnostics that are those of the nodes of some trees, and begin where tokens do, in the order of the
tokens. -/
structure Told (own : RawTree δ → List Diagnostic) (ts : List (RawTree δ)) (ds : List Diagnostic) :
    Prop where
  perm : ds.Perm ((RawTree.nodesOf ts).flatMap own)
  starts : (ds.map (·.span.start)).Sublist ((RawTree.tokensOf ts).map (·.span.start))

namespace Told

variable {own : RawTree δ → List Diagnostic} {ts us front middle back : List (RawTree δ)}
  {ds es : List Diagnostic} {form : Option δ} {i j : Nat}

theorem nil : Told own [] [] := ⟨.nil, .slnil⟩

theorem append (h : Told own ts ds) (h' : Told own us es) : Told own (ts ++ us) (ds ++ es) := by
  refine ⟨?_, ?_⟩
  · rw [RawTree.nodesOf_append, List.flatMap_append]
    exact h.perm.append h'.perm
  · rw [RawTree.tokensOf_append, List.map_append, List.map_append]
    exact h.starts.append h'.starts

/-- Trees about whose nodes there is nothing to tell. -/
theorem silent (h : ∀ u ∈ RawTree.nodesOf ts, own u = []) : Told own ts [] := by
  refine ⟨?_, List.nil_sublist _⟩
  rw [List.flatMap_eq_nil_iff.mpr h]

theorem eq_nil (h : Told own ts ds) (h' : Told own ts []) : ds = [] :=
  (h.perm.trans h'.perm.symm).eq_nil

theorem leaf (tk : Token) : Told own [.leaf tk] [] :=
  silent (by simp [RawTree.nodesOf, RawTree.nodes])

/-- A match that adds nothing to what is told of its children. -/
theorem node (hown : own (.node form i j ts) = []) (h : Told own ts ds) :
    Told own [.node form i j ts] ds := by
  refine ⟨?_, ?_⟩
  · simpa [RawTree.nodesOf, RawTree.nodes, hown] using h.perm
  · simpa [RawTree.tokensOf, RawTree.tokens] using h.starts

/-- A match that adds a diagnostic about some of its children, of whom nothing else is told. -/
theorem around {d : Diagnostic} (hown : own (.node form i j (front ++ middle ++ back)) = [d])
    (hfront : Told own front ds) (hmiddle : Told own middle []) (hback : Told own back es)
    (hstart : d.span.start ∈ (RawTree.tokensOf middle).map (·.span.start)) :
    Told own [.node form i j (front ++ middle ++ back)] (ds ++ d :: es) := by
  have hsilent : (RawTree.nodesOf middle).flatMap own = [] := hmiddle.perm.nil_eq.symm
  refine ⟨?_, ?_⟩
  · have hrest : (ds ++ es).Perm ((RawTree.nodesOf (front ++ middle ++ back)).flatMap own) := by
      simpa [RawTree.nodesOf_append, hsilent] using hfront.perm.append hback.perm
    have hnodes : (RawTree.nodesOf [.node form i j (front ++ middle ++ back)]).flatMap own =
        d :: (RawTree.nodesOf (front ++ middle ++ back)).flatMap own := by
      rw [RawTree.nodesOf, RawTree.nodes, RawTree.nodesOf, List.append_nil, List.flatMap_cons, hown]
      rfl
    rw [hnodes]
    exact List.perm_middle.trans (hrest.cons d)
  · have hone : [d.span.start].Sublist ((RawTree.tokensOf middle).map (·.span.start)) :=
      List.singleton_sublist.mpr hstart
    simpa [RawTree.tokensOf, RawTree.tokens, RawTree.tokensOf_append] using
      hfront.starts.append (hone.append hback.starts)

end Told

namespace Lower

variable {α β : Type} {source : Source} {Q Q' : α → List Diagnostic → Prop}
  {R : β → List Diagnostic → Prop} {P : α → Prop} {x : Lower α}

/-- A step that adds diagnostics at the end; what is known of its result and of them together. -/
def Tells (source : Source) (Q : α → List Diagnostic → Prop) (x : Lower α) : Prop :=
  ∀ ⦃d d' : Draft⦄ ⦃a : α⦄, x source d = .ok (a, d') →
    ∃ ds, d'.diagnostics.toList = d.diagnostics.toList ++ ds ∧ Q a ds

abbrev keeping (ds : Array Diagnostic) : Upkeep := .ofDiagnostics fun _ ds' => ds' = ds

namespace Tells

theorem pure {a : α} (h : Q a []) : Tells source Q (Pure.pure a) := by
  rintro d d' a ⟨⟩
  exact ⟨[], by simp, h⟩

theorem throw (error : LowerError) : Tells source Q (throw error) := by
  rintro d d' a ⟨⟩

theorem bind {next : α → Lower β} (hx : Tells source Q x)
    (hnext : ∀ a ds, Q a ds → Tells source (fun b es => R b (ds ++ es)) (next a)) :
    Tells source R (x >>= next) := by
  intro d d' b hrun
  obtain ⟨a, d₁, ha, hb⟩ := exists_of_bind hrun
  obtain ⟨ds, hds, hQ⟩ := hx ha
  obtain ⟨es, hes, hR⟩ := hnext a ds hQ hb
  exact ⟨ds ++ es, by rw [hes, hds, List.append_assoc], hR⟩

theorem imp (hx : Tells source Q x) (h : ∀ a ds, Q a ds → Q' a ds) : Tells source Q' x := by
  intro d d' a hrun
  obtain ⟨ds, hds, hQ⟩ := hx hrun
  exact ⟨ds, hds, h a ds hQ⟩

theorem read {next : Source → Lower β} (h : Tells source R (next source)) :
    Tells source R (do next (← MonadReader.read)) :=
  fun _ _ _ hrun => h hrun

/-- A step that reports nothing. -/
theorem of_quiet (hx : ∀ ds, (keeping ds).Adds P x) (h : ∀ a, P a → Q a []) : Tells source Q x := by
  intro d d' a hrun
  obtain ⟨hsame, hP⟩ := hx d.diagnostics rfl hrun
  exact ⟨[], by rw [hsame, List.append_nil], h a hP⟩

/-- A step that reports nothing before one that does. -/
theorem after_quiet {next : α → Lower β} (hx : ∀ ds, (keeping ds).AddsStep x)
    (hnext : ∀ a, Tells source R (next a)) : Tells source R (x >>= next) :=
  (of_quiet (Q := fun _ ds => ds = []) hx fun _ _ => rfl).bind fun a ds hds => by
    subst hds
    exact hnext a

/-- A step that reports nothing after one that does. -/
theorem then_quiet {next : α → Lower β} {S : β → Prop} (hx : Tells source Q x)
    (hnext : ∀ a ds, (keeping ds).Adds S (next a)) (h : ∀ a b ds, Q a ds → S b → R b ds) :
    Tells source R (x >>= next) :=
  hx.bind fun a ds hQ => of_quiet (hnext a) fun b hS => by
    rw [List.append_nil]
    exact h a b ds hQ hS

theorem report (span : Span) (issue : Issue) :
    Tells source (fun _ ds => ds = [source.diagnosticAt span issue]) (report span issue) := by
  rintro d d' a ⟨⟩
  exact ⟨_, by simp; rfl, rfl⟩

theorem forIn (own : RawTree δ → List Diagnostic) {ts : List (RawTree δ)}
    {round : RawTree δ → PUnit → Lower (ForInStep PUnit)}
    (h : ∀ t ∈ ts, Tells source (fun r ds => r = .yield ⟨⟩ ∧ Told own [t] ds) (round t ⟨⟩)) :
    Tells source (fun _ ds => Told own ts ds) (forIn ts PUnit.unit round) := by
  induction ts with
  | nil => exact pure .nil
  | cons t ts ih =>
      rw [List.forall_mem_cons] at h
      rw [List.forIn_cons]
      refine h.1.bind fun r ds hr => ?_
      obtain ⟨rfl, hds⟩ := hr
      exact (ih h.2).imp fun _ es hes => hds.append hes

end Tells

end Lower

mutual

/-- Whether a part takes children as they come, and tells of them if there is anything to tell. -/
def Part.takesInOrder : Part δ → Bool
  | .keep .. | .keepMaybe .. | .keepAny _ | .close .. | .drop _ | .dropMaybe _ | .dropAny | .node _
  | .nodeMaybe _ | .formMaybe .. | .nodes _ | .forms .. | .list _ | .resultType _ | .modifiers
  | .accessors _ | .headerItems .. => true
  | .given _ _ ps => takeInOrder ps
  | _ => false

def Part.takeInOrder : List (Part δ) → Bool
  | [] => true
  | p :: ps => takesInOrder p && takeInOrder ps

end

namespace Lowering

open Lower

variable {source : Source} {own : RawTree δ → List Diagnostic}

/-! ## Harmless matches -/

/-- Lowering that tells of every match, where there is nothing to tell of the harmless ones. -/
structure Teller (s : Survey δ) (source : Source) (own : RawTree δ → List Diagnostic)
    (T : RawTree δ → Prop) (recur : Recur δ) : Prop where
  conforms : ∀ {t}, T t → Conforms s.grammar t
  child : ∀ {t c}, T t → c ∈ t.children → T c
  tells : ∀ {t}, T t → Tells source (fun _ ds => Told own [t] ds) (recur t)
  quiet : ∀ ds, Inward (keeping ds) recur (Matches s.grammar s.harmless)
  own_harmless : ∀ {t}, Matches s.grammar s.harmless t → own t = []
  harmless : ∀ {d}, s.refusable d = false → s.harmless d = true

variable {s : Survey δ} {T : RawTree δ → Prop} {recur : Recur δ} {t raw : RawTree δ} {owner : NodeId}
  {o o' : Outlook δ} {c c' : Cursor δ} {p : Symbol δ → Bool} {x : Lower (Cursor δ)}

namespace Teller

theorem matches_of_spares (hs : Teller s source own T recur) (ht : T t)
    (hspares : s.spares t.symbol = true) : Matches s.grammar s.harmless t := by
  refine ⟨hs.conforms ht, ?_⟩
  match t with
  | .leaf _ => rfl
  | .node none .. => cases hspares
  | .node (some d) .. => exact hspares

theorem matches_of_isList (hs : Teller s source own T recur) (ht : T t)
    (hlist : t.symbol.isFormOf s.isList = true) : Matches s.grammar s.harmless t := by
  obtain ⟨d, i, j, cs, rfl, hd⟩ := exists_of_isFormOf hlist
  rw [Survey.isList, Bool.and_eq_true, Bool.not_eq_true'] at hd
  exact hs.matches_of_spares ht (hs.harmless hd.1)

theorem known_of_matches (_ : Teller s source own T recur) (ht : Matches s.grammar s.harmless t) :
    (s.admits t.symbol || s.spares t.symbol) = true := by
  match t with
  | .leaf _ => rfl
  | .node none .. => cases ht.symbol
  | .node (some d) .. =>
      have hd : s.harmless d = true := ht.symbol
      simp [Survey.spares, RawTree.symbol, hd]

theorem told_harmless (hs : Teller s source own T recur) {ts : List (RawTree δ)}
    (hts : ∀ t ∈ ts, Matches s.grammar s.harmless t) : Told own ts [] :=
  .silent fun u hu => hs.own_harmless
    (RawTree.forall_nodesOf (fun {_ _} ht hc => (hs.quiet #[]).child ht hc) hts u hu)

theorem told_of_spares (hs : Teller s source own T recur) {ts : List (RawTree δ)} (hts : ∀ t ∈ ts, T t)
    (hspares : ∀ t ∈ ts, s.spares t.symbol = true) : Told own ts [] :=
  hs.told_harmless fun t ht => hs.matches_of_spares (hts t ht) (hspares t ht)

end Teller

/-! ## Steps of reading -/

theorem tells_spanOf (t : RawTree δ) :
    Tells source (fun span ds => span = t.span source.stream ∧ ds = []) (spanOf t) := by
  rintro d d' span ⟨⟩
  exact ⟨[], by simp, rfl, rfl⟩

/-- What is known when children have been taken from a cursor, which leaves another: they are tokens or
matches that may become nodes or are harmless, and they have been told of. -/
structure Passed (s : Survey δ) (own : RawTree δ → List Diagnostic) (o : Outlook δ) (c : Cursor δ)
    (taken : List (RawTree δ)) (c' : Cursor δ) (ds : List Diagnostic) : Prop where
  rest : c.rest = taken ++ c'.rest
  known : ∀ t ∈ taken, (s.admits t.symbol || s.spares t.symbol) = true
  told : Told own taken ds
  foresees : o.Foresees c'.rest

/-- A step that takes children from a cursor and tells of them. -/
abbrev TellsTo (s : Survey δ) (source : Source) (own : RawTree δ → List Diagnostic) (o : Outlook δ)
    (c : Cursor δ) (x : Lower (Cursor δ)) : Prop :=
  Tells source (fun c' ds => ∃ taken, Passed s own o c taken c' ds) x

namespace TellsTo

theorem mono (h : TellsTo s source own o c x) (hsub : o ⊆ o') : TellsTo s source own o' c x :=
  h.imp fun _ _ ⟨taken, hpassed⟩ => ⟨taken, { hpassed with foresees := hpassed.foresees.mono hsub }⟩

theorem stay (hc : o.Foresees c.rest) : TellsTo s source own o c (pure c) :=
  .pure ⟨[], rfl, by simp, .nil, hc⟩

/-- The next child is taken and told of. -/
theorem took (htook : Took p o c t c') (hknown : (s.admits t.symbol || s.spares t.symbol) = true)
    (hx : Tells source (fun r ds => r = c' ∧ Told own [t] ds) x) :
    TellsTo s source own (o.past p) c x := by
  refine hx.imp fun r ds hr => ?_
  obtain ⟨rfl, hds⟩ := hr
  exact ⟨[t], htook.rest, by simpa using hknown, hds, htook.foresees⟩

/-- The next child, of which there is nothing to tell, is taken. -/
theorem tookQuietly (htook : Took p o c t c')
    (hknown : (s.admits t.symbol || s.spares t.symbol) = true) (ht : Told own [t] [])
    (hx : ∀ ds, (keeping ds).Adds (· = c') x) : TellsTo s source own (o.past p) c x :=
  .took htook hknown (.of_quiet hx fun _ hr => ⟨hr, ht⟩)

theorem tookToken {tk : Token} (htook : Took p o c (.leaf tk) c')
    (hx : ∀ ds, (keeping ds).Adds (· = c') x) : TellsTo s source own (o.past p) c x :=
  .tookQuietly htook rfl (.leaf tk) hx

/-- Taking children and then more. -/
theorem andThen {f : Cursor δ → Lower (Cursor δ)} (h : TellsTo s source own o c x)
    (hrest : ∀ t ∈ c.rest, T t)
    (hf : ∀ c', o.Foresees c'.rest → (∀ t ∈ c'.rest, T t) → TellsTo s source own o' c' (f c')) :
    TellsTo s source own o' c (x >>= f) := by
  refine h.bind fun c₁ ds hpassed => ?_
  obtain ⟨taken, hpassed⟩ := hpassed
  have hrest₁ : ∀ t ∈ c₁.rest, T t := fun t ht => hrest t (by simp [hpassed.rest, ht])
  refine (hf c₁ hpassed.foresees hrest₁).imp fun c₂ es hmore => ?_
  obtain ⟨more, hmore⟩ := hmore
  refine ⟨taken ++ more, ?_, ?_, hpassed.told.append hmore.told, hmore.foresees⟩
  · rw [hpassed.rest, hmore.rest, List.append_assoc]
  · exact List.forall_mem_append.mpr ⟨hpassed.known, hmore.known⟩

end TellsTo

theorem known_of_isFormOf {p : δ → Bool} (ht : t.symbol.isFormOf p = true)
    (hp : ∀ d, p d = true → (s.lowered d || s.harmless d) = true) :
    (s.admits t.symbol || s.spares t.symbol) = true := by
  obtain ⟨d, i, j, cs, rfl, hd⟩ := exists_of_isFormOf ht
  exact hp d hd

/-- A node that is made and put below its owner. -/
theorem tells_put {make : Lower NodeId} (hmake : Tells source (fun _ ds => Told own [t] ds) make)
    {put : NodeId → Lower Unit} (hput : ∀ n ds, (keeping ds).AddsStep (put n)) {β : Type} (b : β) :
    Tells source (fun r ds => r = b ∧ Told own [t] ds) (do put (← make); return b) :=
  hmake.then_quiet (S := (· = b)) (fun n ds => (hput n ds).andThen fun _ => .pure rfl)
    fun _ _ _ hds hb => ⟨hb, hds⟩

namespace Teller

theorem tells_child (hs : Teller s source own T recur) (ht : T t) :
    Tells source (fun _ ds => Told own [t] ds) (Lowering.child recur t) := by
  cases t with
  | leaf tk => exact .of_quiet (fun _ => adds_token tk) fun _ _ => .leaf tk
  | node => exact hs.tells ht

variable [DecidableEq δ]

/-- The next matches are told of and put below their owner. -/
theorem tells_putAll (hs : Teller s source own T recur) {p : Symbol δ → Bool}
    (ho' : o.takeAll p (·.isFormOf s.lowered) = some o') (hc : o.Foresees c.rest)
    (hrest : ∀ t ∈ c.rest, T t) {found : List (RawTree δ) × Cursor δ}
    (hfound : found = (c.rest.takeWhile (p ·.symbol),
      { c with rest := c.rest.dropWhile (p ·.symbol) }))
    {put : NodeId → Lower Unit} (hput : ∀ n ds, (keeping ds).AddsStep (put n)) :
    TellsTo s source own o' c (do
      for n in found.1 do put (← recur n)
      return found.2) := by
  subst hfound
  obtain ⟨hforms, hforesees⟩ := hc.takeAll ho'
  refine (Tells.forIn own fun t ht => ?_).then_quiet (S := (· = _))
    (fun _ _ => .pure rfl) fun _ b ds hds hb => ?_
  · exact tells_put (hs.tells (hrest t ((List.takeWhile_sublist _).mem ht))) hput _
  · subst hb
    exact ⟨_, List.takeWhile_append_dropWhile.symm,
      fun t ht => known_of_isFormOf (hforms t ht) fun _ hd => by simp [hd], hds, hforesees⟩

mutual

theorem tells_readPart (hs : Teller s source own T recur) (owner : NodeId) :
    ∀ (p : Part δ), p.takesInOrder = true →
    ∀ {d : δ} {o o' : Outlook δ} {raw : RawTree δ} {c : Cursor δ}, s.partAfter d p o = some o' →
    o.Foresees c.rest → (∀ t ∈ c.rest, T t) →
    TellsTo s source own o' c (readPart s.grammar recur owner raw c p)
  | .keep k title, _, d, o, o', raw, c, ho', hc, _ => by
      obtain ⟨hmust, rfl⟩ := Outlook.take_eq_some.mp ho'
      obtain ⟨tk, c', htoken, htook⟩ := Cursor.token_must hc hmust
      rw [readPart, htoken, pure_bind]
      exact .tookToken htook fun _ => (adds_setToken trivial title tk).andThen fun _ => .pure rfl
  | .close k title, _, d, o, o', raw, c, ho', hc, _ => by
      obtain ⟨hmust, rfl⟩ := Outlook.take_eq_some.mp ho'
      obtain ⟨tk, c', htoken, htook⟩ := Cursor.token_must hc hmust
      rw [readPart, htoken, pure_bind]
      exact .tookToken htook fun _ => (adds_attachTrailing trivial _).andThen fun _ =>
        (adds_setToken trivial title tk).andThen fun _ => .pure rfl
  | .drop k, _, d, o, o', raw, c, ho', hc, _ => by
      obtain ⟨hmust, rfl⟩ := Outlook.take_eq_some.mp ho'
      obtain ⟨tk, c', htoken, htook⟩ := Cursor.token_must hc hmust
      rw [readPart, htoken, pure_bind]
      exact .tookToken htook fun _ => .pure rfl
  | .keepMaybe k title, _, d, o, o', raw, c, ho', hc, _ => by
      obtain rfl := Option.some.inj ho'
      rw [readPart]
      rcases Cursor.eat_or k hc with ⟨tk, c', heat, htook⟩ | ⟨heat, hwithout⟩ <;> rw [heat]
      · exact (TellsTo.tookToken htook fun _ => (adds_setToken trivial title tk).andThen fun _ =>
          .pure rfl).mono (List.subset_append_left _ _)
      · exact (TellsTo.stay hwithout).mono (List.subset_append_right _ _)
  | .dropMaybe k, _, d, o, o', raw, c, ho', hc, _ => by
      obtain rfl := Option.some.inj ho'
      rw [readPart]
      rcases Cursor.eat_or k hc with ⟨tk, c', heat, htook⟩ | ⟨heat, hwithout⟩ <;> rw [heat]
      · exact (TellsTo.tookToken htook fun _ => .pure rfl).mono (List.subset_append_left _ _)
      · exact (TellsTo.stay hwithout).mono (List.subset_append_right _ _)
  | .keepAny title, _, d, o, o', raw, c, ho', hc, _ => by
      obtain ⟨hmust, rfl⟩ := Outlook.take_eq_some.mp ho'
      obtain ⟨tk, c', htoken, htook⟩ := Cursor.anyToken_must hc hmust
      rw [readPart, htoken, pure_bind]
      exact .tookToken htook fun _ => (adds_setToken trivial title tk).andThen fun _ => .pure rfl
  | .dropAny, _, d, o, o', raw, c, ho', hc, _ => by
      obtain ⟨hmust, rfl⟩ := Outlook.take_eq_some.mp ho'
      obtain ⟨tk, c', htoken, htook⟩ := Cursor.anyToken_must hc hmust
      rw [readPart, htoken, pure_bind]
      exact .tookToken htook fun _ => .pure rfl
  | .node title, _, d, o, o', raw, c, ho', hc, hrest => by
      obtain ⟨hmust, rfl⟩ := Outlook.take_eq_some.mp ho'
      obtain ⟨t, rest, hcons, htook⟩ := Cursor.took_of_must hc hmust
      rw [readPart, Cursor.node_node hcons (isNode_of_isFormOf _ htook.holds), pure_bind]
      refine .took htook (known_of_isFormOf htook.holds fun _ hd => by simp [hd]) ?_
      exact tells_put (hs.tells (hrest t htook.mem)) (fun _ _ => adds_set trivial title trivial) _
  | .nodeMaybe title, _, d, o, o', raw, c, ho', hc, hrest => by
      obtain ⟨hnarrows, rfl⟩ := Outlook.takeOnly_eq_some.mp ho'
      rw [readPart]
      rcases Cursor.eatNode_or hc with ⟨t, c', heat, htook⟩ | ⟨heat, hwithout⟩ <;> rw [heat]
      · refine (TellsTo.took htook (known_of_isFormOf (htook.narrows hc hnarrows)
          fun _ hd => by simp [hd]) ?_).mono (List.subset_append_left _ _)
        exact tells_put (hs.tells (hrest t htook.mem)) (fun _ _ => adds_set trivial title trivial) _
      · exact (TellsTo.stay hwithout).mono (List.subset_append_right _ _)
  | .formMaybe f title, _, d, o, o', raw, c, ho', hc, hrest => by
      obtain ⟨hnarrows, rfl⟩ := Outlook.takeOnly_eq_some.mp ho'
      rw [readPart]
      rcases Cursor.eatForm_or f hc with ⟨t, c', heat, htook⟩ | ⟨heat, hwithout⟩ <;> rw [heat]
      · refine (TellsTo.took htook (known_of_isFormOf (htook.narrows hc hnarrows)
          fun _ hd => by simp [hd]) ?_).mono (List.subset_append_left _ _)
        exact tells_put (hs.tells (hrest t htook.mem)) (fun _ _ => adds_set trivial title trivial) _
      · exact (TellsTo.stay hwithout).mono (List.subset_append_right _ _)
  | .nodes title, _, d, o, o', raw, c, ho', hc, hrest => by
      rw [readPart]
      exact hs.tells_putAll ho' hc hrest (Cursor.takeNodes_none c)
        fun _ _ => adds_push trivial title trivial
  | .forms f title, _, d, o, o', raw, c, ho', hc, hrest => by
      rw [readPart]
      exact hs.tells_putAll ho' hc hrest (Cursor.takeNodes_some c f)
        fun _ _ => adds_push trivial title trivial
  | .accessors f, _, d, o, o', raw, c, ho', hc, hrest => by
      rw [readPart]
      exact hs.tells_putAll ho' hc hrest (Cursor.takeNodes_some c f)
        fun _ _ => adds_setAccessor trivial trivial
  | .list title, _, d, o, o', raw, c, ho', hc, hrest => by
      obtain ⟨hmust, rfl⟩ := Outlook.take_eq_some.mp ho'
      obtain ⟨t, rest, hcons, htook⟩ := Cursor.took_of_must hc hmust
      have ht := hs.matches_of_isList (hrest t htook.mem) htook.holds
      rw [readPart, Cursor.node_node hcons (isNode_of_isFormOf _ htook.holds), pure_bind]
      refine .tookQuietly htook (hs.known_of_matches ht) (hs.told_harmless (by simpa using ht)) ?_
      exact fun ds => (adds_elements (hs.quiet ds) ht s.grammar).bind fun ns hns =>
        (adds_pushAll trivial title hns).andThen fun _ => .pure rfl
  | .resultType title, _, d, o, o', raw, c, ho', hc, hrest => by
      obtain ⟨hmust, rfl⟩ := Outlook.take_eq_some.mp ho'
      obtain ⟨t, rest, hcons, htook⟩ := Cursor.took_of_must hc hmust
      obtain ⟨f, i, j, cs, rfl, hf⟩ := exists_of_isFormOf htook.holds
      rw [Bool.and_eq_true] at hf
      have ht := hs.matches_of_spares (hrest _ htook.mem) hf.1
      rw [readPart, Cursor.node_node hcons rfl, pure_bind]
      refine .tookQuietly htook (hs.known_of_matches ht) (hs.told_harmless (by simpa using ht)) ?_
      intro ds
      dsimp only
      split
      · exact ((hs.quiet ds).adds ht).bind fun n hn => (adds_set trivial title hn).andThen fun _ =>
          .pure rfl
      · exact .pure rfl
  | .modifiers, _, d, o, o', raw, c, ho', hc, hrest => by
      obtain ⟨hmust, rfl⟩ := Outlook.take_eq_some.mp ho'
      obtain ⟨t, rest, hcons, htook⟩ := Cursor.took_of_must hc hmust
      obtain ⟨f, i, j, cs, rfl, hf⟩ := exists_of_isFormOf htook.holds
      rw [Survey.spellsModifiers, Bool.and_eq_true] at hf
      have ht := hs.matches_of_spares (hrest _ htook.mem) hf.1
      rw [readPart, Cursor.node_node hcons rfl, pure_bind]
      refine .tookQuietly htook (hs.known_of_matches ht) (hs.told_harmless (by simpa using ht)) ?_
      exact fun ds => (adds_addModifiers _ trivial _).andThen fun _ => .pure rfl
  | .headerItems f title, _, d, o, o', raw, c, ho', hc, hrest => by
      obtain ⟨hnarrows, rfl⟩ := Outlook.takeOnly_eq_some.mp ho'
      rw [readPart]
      rcases Cursor.eatNode_or hc with ⟨t, c', heat, htook⟩ | ⟨heat, hwithout⟩ <;> rw [heat]
      · refine TellsTo.mono ?_ (List.subset_append_left _ _)
        obtain ⟨f', i, j, cs, rfl, hf⟩ := exists_of_isFormOf (htook.narrows hc hnarrows)
        have hT := hrest _ htook.mem
        dsimp only
        split at hf
        · next heq =>
            subst heq
            have hform : (RawTree.node (some f') i j cs).isForm f' = true := by
              simp [RawTree.isForm]
            rw [if_pos hform]
            refine .took htook (by simp [Survey.admits, RawTree.symbol, hf]) ?_
            exact tells_put (hs.tells hT) (fun _ _ => adds_push trivial title trivial) _
        · next hne =>
            have ht := hs.matches_of_isList hT (show Symbol.isFormOf _ (.node (some f')) = true from hf)
            have hform : ¬ (RawTree.node (some f') i j cs).isForm f = true := by
              simpa [RawTree.isForm] using Ne.symm hne
            rw [if_neg hform]
            refine .tookQuietly htook (hs.known_of_matches ht) (hs.told_harmless (by simpa using ht)) ?_
            exact fun ds => (adds_expressionStatements (hs.quiet ds) ht s.grammar).bind fun ns hns =>
              (adds_pushAll trivial title hns).andThen fun _ => .pure rfl
      · exact (TellsTo.stay hwithout).mono (List.subset_append_right _ _)
  | .given k kept parts, hp, d, o, o', raw, c, ho', hc, hrest => by
      obtain ⟨inner, hinner, ho'⟩ := Option.bind_eq_some_iff.mp ho'
      obtain rfl := Option.some.inj ho'
      rw [readPart]
      rcases Cursor.eat_or k hc with ⟨tk, c', heat, htook⟩ | ⟨heat, hwithout⟩ <;> rw [heat]
      · have htoken : TellsTo s source own (o.past (·.isAny [k])) c (do
            if let some t := kept then Lower.setToken owner t tk
            return c') := by
          refine .tookToken htook fun _ => ?_
          cases kept with
          | none => exact .pure rfl
          | some t => exact (adds_setToken trivial t tk).andThen fun _ => .pure rfl
        have hboth := htoken.andThen (f := fun c => readParts s.grammar recur owner raw c parts) hrest
          fun c' hc' hrest' => tells_readParts hs owner parts hp hinner hc' hrest'
        refine TellsTo.mono ?_ (List.subset_append_left _ _)
        cases kept with
        | none => exact hboth
        | some t => simpa only [bind_assoc, pure_bind] using hboth
      · exact (TellsTo.stay hwithout).mono (List.subset_append_right _ _)
  | .needless _, hp, _, _, _, _, _, _, _, _ | .everything _, hp, _, _, _, _, _, _, _, _
  | .elements _, hp, _, _, _, _, _, _, _, _ | .body _, hp, _, _, _, _, _, _, _, _
  | .objectDefault .., hp, _, _, _, _, _, _, _, _ | .within .., hp, _, _, _, _, _, _, _, _
  | .withinAll .., hp, _, _, _, _, _, _, _, _ | .ownModifiers, hp, _, _, _, _, _, _, _, _
  | .modifierMaybe _, hp, _, _, _, _, _, _, _, _ | .propertyModifiers, hp, _, _, _, _, _, _, _, _
  | .impliedAccessors _, hp, _, _, _, _, _, _, _, _ | .typeMembers _, hp, _, _, _, _, _, _, _, _
  | .declarators .., hp, _, _, _, _, _, _, _, _ | .commentsAfter, hp, _, _, _, _, _, _, _, _ => by
      cases hp

theorem tells_readParts (hs : Teller s source own T recur) (owner : NodeId) : ∀ (ps : List (Part δ)),
    Part.takeInOrder ps = true → ∀ {d : δ} {o o' : Outlook δ} {raw : RawTree δ} {c : Cursor δ},
    s.partsAfter d ps o = some o' → o.Foresees c.rest → (∀ t ∈ c.rest, T t) →
    TellsTo s source own o' c (readParts s.grammar recur owner raw c ps)
  | [], _, d, o, o', raw, c, ho', hc, _ => by
      obtain rfl := Option.some.inj ho'
      rw [readParts]
      exact .stay hc
  | p :: ps, hp, d, o, o', raw, c, ho', hc, hrest => by
      obtain ⟨o₁, ho₁, ho'⟩ := Option.bind_eq_some_iff.mp ho'
      rw [Part.takeInOrder, Bool.and_eq_true] at hp
      rw [readParts]
      exact (tells_readPart hs owner p hp.1 ho₁ hc hrest).andThen hrest fun c' hc' hrest' =>
        tells_readParts hs owner ps hp.2 ho' hc' hrest'

end

/-- All children of a match are told of and put below its owner. -/
theorem tells_everything (hs : Teller s source own T recur) (ht : T raw) (title : Title) :
    Tells source (fun _ ds => Told own raw.children ds)
      (readPart s.grammar recur owner raw c (.everything title)) := by
  rw [readPart]
  refine (Tells.forIn own fun t hc => ?_).then_quiet (S := fun _ => True)
    (fun _ _ => .pure trivial) fun _ _ _ hds _ => hds
  exact tells_put (hs.tells_child (hs.child ht hc)) (fun _ _ => adds_push trivial title trivial) _

end Teller

theorem tells_build [BEq δ] {g : Grammar δ} {kind : NodeKind} {parts : List (Part δ)}
    (hparts : ∀ owner, Tells source (fun _ ds => Told own [raw] ds) (readParts g recur owner raw c parts)) :
    Tells source (fun _ ds => Told own [raw] ds) (build g recur raw c kind parts) :=
  .after_quiet (fun _ => adds_spanOf raw) fun span =>
    .after_quiet (fun _ => (adds_allocate trivial span).step) fun n =>
      (hparts n).then_quiet (S := fun _ => True) (fun _ _ => .pure trivial) fun _ _ _ hds _ => hds

theorem readParts_append [BEq δ] (g : Grammar δ) (ps qs : List (Part δ)) :
    readParts g recur owner raw c (ps ++ qs) =
      (readParts g recur owner raw c ps >>= fun c => readParts g recur owner raw c qs) := by
  induction ps generalizing c with
  | nil => rw [List.nil_append, readParts, pure_bind]
  | cons p ps ih =>
      rw [List.cons_append, readParts, readParts, bind_assoc]
      exact bind_congr fun c' => ih

end Lowering

end DualSyntax
