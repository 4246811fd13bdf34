import DualSyntax.Proofs.Lowering.Additions
import DualSyntax.Proofs.Lowering.Survey

/-!
# Parts that are kept up with

Reading the parts of a match is kept up with, provided that the nested matches are.  The trees that are
kept up with are closed under children, so a cursor over the children of one of them shows only such
trees.  Diagnostics may be reported only where that is kept up with, too: some parts are quiet and report
nothing (`Part.isQuiet`), and some things that are kept up do not mind (`Reports`).
-/

namespace DualSyntax

mutual

def Part.isQuiet {δ : Type} : Part δ → Bool
  | .needless _ | .body _ => false
  | .given _ _ ps | .within _ ps | .withinAll _ ps => areQuiet ps
  | _ => true

def Part.areQuiet {δ : Type} : List (Part δ) → Bool
  | [] => true
  | p :: ps => isQuiet p && areQuiet ps

end

def Source.diagnosticAt (source : Source) (span : Span) (issue : Issue) : Diagnostic :=
  ⟨source.language, issue, span, source.lines.lineColumn span.start, none⟩

namespace Lowering

open Forest Lower

variable {δ : Type} {U : Upkeep} {recur : Recur δ} {T : RawTree δ → Prop}

/-- Trees whose children are such trees again and whose matches are kept up with. -/
structure Inward (U : Upkeep) (recur : Recur δ) (T : RawTree δ → Prop) : Prop where
  child : ∀ {t c : RawTree δ}, T t → c ∈ t.children → T c
  adds : ∀ {t : RawTree δ}, T t → U.AddsNode (recur t)

/-- Trees about which anything may be reported. -/
structure Reports (U : Upkeep) (T : RawTree δ → Prop) : Prop where
  token : ∀ {source d tk}, T (.leaf tk) → U.holds source d → U.holds source
    { d with diagnostics := d.diagnostics.push (source.diagnosticAt tk.span .redundantSemicolon) }
  node : ∀ {source d t}, T t → U.holds source d → U.holds source
    { d with diagnostics :=
        d.diagnostics.push (source.diagnosticAt (t.span source.stream) .emptyStatement) }

/-! ## Cursors -/

def Cursor.In (T : RawTree δ → Prop) (c : Cursor δ) : Prop := ∀ t ∈ c.rest, T t

abbrev NodeIn (T : RawTree δ → Prop) (p : RawTree δ × Cursor δ) : Prop := T p.1 ∧ p.2.In T

structure TookIn (T : RawTree δ → Prop) (p : Option (RawTree δ) × Cursor δ) : Prop where
  found : ∀ t ∈ p.1, T t
  rest : p.2.In T

namespace Cursor.In

variable {c : Cursor δ} {I : Source → Draft → Prop}

theorem tail {t : RawTree δ} {ts : List (RawTree δ)} (h : c.In T) (hrest : c.rest = t :: ts) :
    T t ∧ Cursor.In T { c with rest := ts } := by
  rw [Cursor.In, hrest, List.forall_mem_cons] at h
  exact h

theorem eatAny (h : c.In T) (kinds : List TokenKind) : (c.eatAny kinds).2.In T := by
  unfold Cursor.eatAny
  split
  · next hrest =>
      split
      · exact (h.tail hrest).2
      · exact h
  · exact h

theorem eat (h : c.In T) (k : TokenKind) : (c.eat k).2.In T := h.eatAny [k]

theorem eaten (h : c.In T) (k : TokenKind) : ∀ tk ∈ (c.eat k).1, T (.leaf tk) := by
  unfold Cursor.eat Cursor.eatAny
  split
  · next hrest =>
      split
      · simpa using (h.tail hrest).1
      · simp
  · simp

theorem eatNode (h : c.In T) : TookIn T c.eatNode := by
  unfold Cursor.eatNode
  split
  · next hrest =>
      obtain ⟨ht, hc⟩ := h.tail hrest
      exact ⟨by simpa using ht, hc⟩
  · exact ⟨by simp, h⟩

theorem eatForm [BEq δ] (h : c.In T) (d : δ) : TookIn T (c.eatForm d) := by
  unfold Cursor.eatForm
  split
  · next hrest =>
      obtain ⟨ht, hc⟩ := h.tail hrest
      split
      · exact ⟨by simpa using ht, hc⟩
      · exact ⟨by simp, h⟩
  · exact ⟨by simp, h⟩

theorem takeNodes [BEq δ] (h : c.In T) (d : Option δ) :
    (∀ t ∈ (c.takeNodes d).1, T t) ∧ (c.takeNodes d).2.In T :=
  ⟨fun t ht => h t ((List.takeWhile_sublist _).mem ht),
    fun t ht => h t ((List.dropWhile_sublist _).mem ht)⟩

theorem token (h : c.In T) (k : TokenKind) : Maintains I (fun r => r.2.In T) (c.token k) := by
  have heat := h.eat k
  unfold Cursor.token
  generalize c.eat k = r at heat ⊢
  match r with
  | (some tk, c) => exact .pure heat
  | (none, c) => exact .throw _

theorem anyToken (h : c.In T) : Maintains I (fun r => r.2.In T) c.anyToken := by
  unfold Cursor.anyToken
  split
  · next hrest => exact .pure (h.tail hrest).2
  · exact .throw _

theorem node (h : c.In T) : Maintains I (NodeIn T) c.node := by
  have heat := h.eatNode
  unfold Cursor.node
  generalize c.eatNode = r at heat ⊢
  match r with
  | (some t, c) => exact .pure ⟨heat.found t rfl, heat.rest⟩
  | (none, c) => exact .throw _

end Cursor.In

theorem cursor_in (hin : Inward U recur T) {raw : RawTree δ} (hraw : T raw) (g : Grammar δ) :
    (cursor g raw).In T :=
  fun _ ht => hin.child hraw (List.mem_filter.mp ht).1

/-! ## Nested matches -/

section Nested

variable {g : Grammar δ} {raw : RawTree δ} {owner n : NodeId}

theorem adds_reportToken (hrep : Reports U T) {tk : Token} (htk : T (.leaf tk)) :
    U.AddsStep (Lower.report tk.span .redundantSemicolon) := by
  rintro source d d' a hd ⟨⟩
  exact ⟨hrep.token htk hd, trivial⟩

theorem adds_reportThen {β : Type} {P : β → Prop} {next : Lower β} (hrep : Reports U T) (hraw : T raw)
    (hnext : U.Adds P next) : U.Adds P (do Lower.report (← spanOf raw) .emptyStatement; next) :=
  fun _ _ _ _ hd hrun => hnext (hrep.node hraw hd) hrun

theorem adds_spanOf (raw : RawTree δ) : U.AddsStep (spanOf raw) := .read fun _ => .pure trivial

theorem adds_child (hin : Inward U recur T) (hraw : T raw) : U.AddsNode (child recur raw) := by
  cases raw with
  | leaf t => exact adds_token t
  | node => exact hin.adds hraw

theorem adds_elements (hin : Inward U recur T) (hraw : T raw) (g : Grammar δ) :
    U.Adds (fun ns => ∀ n ∈ ns, U.owns n) (elements g recur raw) :=
  .mapM fun _ ht => adds_child hin (hin.child hraw (Setting.mem_children_of_mem_items ht))

theorem adds_pushAll {ns : List NodeId} (howner : U.owns owner) (t : Title)
    (hns : ∀ n ∈ ns, U.owns n) : U.AddsStep (pushAll owner t ns) :=
  .forM fun n hn => adds_push howner t (hns n hn)

theorem adds_arrayOf (hn : U.owns n) (rank : RawTree δ) (span : Span) :
    U.AddsNode (arrayOf g n rank span) :=
  (adds_allocate (U.inner rfl) span).bind fun _ hm => (adds_set hm _ hn).andThen fun _ => .pure hm

theorem adds_setAccessor (howner : U.owns owner) (hn : U.owns n) :
    U.AddsStep (setAccessor owner n) := by
  refine Maintains.look.andThen fun kind => ?_
  split
  · exact adds_set howner _ hn
  · exact adds_set howner _ hn

theorem adds_addModifiers (drop : Modifier → Bool) (howner : U.owns owner) (raw : RawTree δ) :
    U.AddsStep (addModifiers drop owner raw) := by
  refine .foldlM trivial fun dropped _ t _ => ?_
  refine (adds_modifier t).bind fun n hn => ?_
  refine Maintains.look.andThen fun kind => ?_
  split
  · split
    · exact .pure trivial
    · exact (adds_push howner _ hn).andThen fun _ => .pure trivial
  · exact .pure trivial

theorem adds_expressionStatements (hin : Inward U recur T) (hraw : T raw) (g : Grammar δ) :
    U.Adds (fun ns => ∀ n ∈ ns, U.owns n) (expressionStatements g recur raw) := by
  refine .mapM fun t ht => ?_
  refine (adds_child hin (hin.child hraw (Setting.mem_children_of_mem_items ht))).bind fun e he => ?_
  refine (adds_spanOf t).andThen fun span => (adds_allocate (U.inner rfl) span).bind fun n hn => ?_
  exact (adds_set hn _ he).andThen fun _ => .pure hn

theorem adds_addMember (hin : Inward U recur T) {name : Option (RawTree δ)}
    (hname : ∀ t ∈ name, T t) (hraw : T raw) (howner : U.owns owner) :
    U.AddsStep (addMember recur owner name raw) := by
  refine (hin.adds hraw).bind fun n hn => ?_
  refine Maintains.look.andThen fun nameless => ?_
  have hpush : U.AddsStep (Lower.push owner .members n) := adds_push howner _ hn
  split
  · split
    · next name =>
        refine (hin.adds (hname name rfl)).bind fun m hm => ?_
        exact (adds_set hn _ hm).andThen fun _ => hpush
    · exact hpush
  · exact hpush

end Nested

/-! ## Declarators -/

section Declarators

variable {g : Grammar δ} {forms : DeclaratorForms δ} {raw : RawTree δ} {owner n : NodeId}
  {d : Declarator δ}

structure Declarator.In (T : RawTree δ → Prop) (d : Declarator δ) : Prop where
  name : T d.name
  suffix : ∀ t ∈ d.suffix, T t
  clause : ∀ t ∈ d.clause, T t
  initializer : ∀ t ∈ d.initializer, T t

theorem nextClause_in {i : Nat} {ds : List (Declarator δ)} (hds : ∀ d ∈ ds, d.In T) :
    ∀ p ∈ clausesFrom.nextClause i ds, T p.2 := by
  induction ds generalizing i with
  | nil => simp [clausesFrom.nextClause]
  | cons d ds ih =>
      rw [List.forall_mem_cons] at hds
      rw [clausesFrom.nextClause]
      split
      · next clause hclause => simpa using hds.1.clause clause (by simp [hclause])
      · exact ih hds.2

theorem clausesFrom_in {i : Nat} {ds : List (Declarator δ)} (hds : ∀ d ∈ ds, d.In T) :
    ∀ o ∈ clausesFrom i ds, ∀ p ∈ o, T p.2 := by
  induction ds generalizing i with
  | nil => simp [clausesFrom]
  | cons d ds ih =>
      rw [List.forall_mem_cons] at hds
      rw [clausesFrom, List.forall_mem_cons]
      refine ⟨?_, ih hds.2⟩
      split
      · next clause hclause => simpa using hds.1.clause clause (by simp [hclause])
      · split
        · simp
        · exact nextClause_in hds.2

theorem adds_clauseType (hin : Inward U recur T) (hraw : T raw) :
    U.AddsNode (clauseType g recur raw) := by
  refine ((cursor_in hin hraw g).token .kwAs).bind fun r hr => ?_
  exact (hr.eat .kwNew).node.bind fun r hr => hin.adds hr.1

theorem adds_clauseCreation (hin : Inward U recur T) (hraw : T raw) :
    U.Adds (fun r => ∀ n ∈ r, U.owns n) (clauseCreation g recur raw) := by
  refine ((cursor_in hin hraw g).token .kwAs).bind fun r hr => ?_
  have hrest := hr.eat .kwNew
  dsimp only
  generalize r.2.eat .kwNew = q at hrest ⊢
  match q with
  | (none, c) => exact .pure (by simp)
  | (some kw, c) =>
      refine (adds_spanOf raw).andThen fun span => (adds_allocate (U.inner rfl) span).bind fun n hn => ?_
      refine (adds_setToken hn _ kw).andThen fun _ => ?_
      refine hrest.node.bind fun r hr => (hin.adds hr.1).bind fun type htype => ?_
      refine (adds_set hn _ htype).andThen fun _ => ?_
      have hdone : U.Adds (fun r => ∀ n ∈ r, U.owns n) (pure (some n) : Lower (Option NodeId)) :=
        .pure (by simpa using hn)
      have hrest := hr.2.eat .lParen
      generalize r.2.eat .lParen = q at hrest ⊢
      match q with
      | (none, c) => exact hdone
      | (some _, c) =>
          refine hrest.node.bind fun r hr => (adds_elements hin hr.1 g).bind fun ns hns => ?_
          exact (adds_pushAll hn _ hns).andThen fun _ => hdone

theorem adds_declaratorType (hin : Inward U recur T) (d : Declarator δ) (hraw : T raw) :
    U.AddsNode (declaratorType g recur d raw) := by
  refine (adds_clauseType hin hraw).bind fun type htype => ?_
  split
  · next suffix _ => exact (adds_spanOf suffix).andThen fun span => adds_arrayOf htype suffix span
  · exact .pure htype

variable [BEq δ]

theorem adds_readDeclarator (hin : Inward U recur T) (hraw : T raw) :
    U.Adds (Declarator.In T) (readDeclarator g forms raw) := by
  refine (cursor_in hin hraw g).node.bind fun r hr => ?_
  obtain ⟨name, c⟩ := r
  have hsuffix := hr.2.eatForm forms.suffix
  dsimp only
  generalize c.eatForm forms.suffix = q at hsuffix ⊢
  obtain ⟨suffix, c⟩ := q
  have hasType := hsuffix.rest.eatForm forms.asType
  dsimp only at hasType ⊢
  generalize c.eatForm forms.asType = q at hasType ⊢
  match q with
  | (some clause, c) => exact .pure ⟨hr.1, hsuffix.found, hasType.found, (hasType.rest.eat .eq).eatNode.found⟩
  | (none, c) =>
      have hasNew := hasType.rest.eatForm forms.asNew
      exact .pure ⟨hr.1, hsuffix.found, hasNew.found, (hasNew.rest.eat .eq).eatNode.found⟩

theorem adds_declaratorValue (hin : Inward U recur T) (hd : d.In T) (hn : U.owns n)
    {clause : Option (RawTree δ)} (hclause : ∀ t ∈ clause, T t) :
    U.Adds (fun r => ∀ n ∈ r, U.owns n) (declaratorValue g recur forms n d clause) := by
  unfold declaratorValue
  split
  · next init hinit =>
      have hvalue : U.Adds (fun r => ∀ n ∈ r, U.owns n) (do return some (← recur init)) :=
        (hin.adds (hd.initializer init (by simp [hinit]))).bind fun m hm => .pure (by simpa using hm)
      dsimp only
      split
      · next tk _ => exact (adds_setToken hn _ tk).andThen fun _ => hvalue
      · exact hvalue
  · split
    · next own hown =>
        refine adds_clauseCreation hin (hd.clause own ?_)
        exact (Option.filter_eq_some_iff.mp hown).1
    · next suffix hnone hsuffix =>
        split
        · next sizes c hsizes =>
            have hmem : sizes ∈ suffix.children :=
              List.mem_of_getElem? (Option.filter_eq_some_iff.mp hsizes).1
            refine (adds_spanOf suffix).andThen fun span => (adds_allocate (U.inner rfl) span).bind fun a ha => ?_
            refine (adds_clauseType hin (hclause c rfl)).bind fun type htype => ?_
            refine (adds_set ha _ htype).andThen fun _ => ?_
            refine (adds_elements hin (hin.child (hd.suffix suffix (by simp [hsuffix])) hmem) g).bind
              fun ns hns => ?_
            exact (adds_pushAll ha _ hns).andThen fun _ => .pure (by simpa using ha)
        · exact .pure (by simp)
    · exact .pure (by simp)

/-- A child that may be there is put below its owner, and reading goes on. -/
theorem adds_setMaybe {β : Type} {P : β → Prop} {x : Lower (Option NodeId)} {rest : Lower β}
    (hx : U.Adds (fun r => ∀ n ∈ r, U.owns n) x) (howner : U.owns owner) (t : Title)
    (hrest : U.Adds P rest) :
    U.Adds P (do
      if let some n ← x then Lower.set owner t n
      rest) := by
  refine hx.bind fun found hfound => ?_
  cases found with
  | some n => exact (adds_set howner t (hfound n rfl)).andThen fun _ => hrest
  | none => exact hrest

/-- Each variable of a declaration is made and put below it. -/
theorem adds_variables (hin : Inward U recur T) (howner : U.owns owner) {ds : List (Declarator δ)}
    (hds : ∀ d ∈ ds, d.In T) {clauses : List (Option (Nat × RawTree δ))}
    (hclauses : ∀ o ∈ clauses, ∀ p ∈ o, T p.2) (forms : DeclaratorForms δ) (shared : Bool) :
    U.AddsStep (do
      for (d, found) in ds.zip clauses do
        let clause := found.map (·.2)
        let n ← Lower.allocate .variableDeclarator (← spanOf d.raw)
        Lower.set n .identifier (← recur d.name)
        if !shared then
          if let some clause := clause then
            Lower.set n .type (← declaratorType g recur d clause)
        if let some value ← declaratorValue g recur forms n d clause then
          Lower.set n .initializer value
        Lower.push owner .declarators n) := by
  refine (Maintains.forIn fun pair hpair => ?_).andThen fun _ => .pure trivial
  obtain ⟨d, found⟩ := pair
  obtain ⟨hd, hfound⟩ := List.of_mem_zip hpair
  have hclause : ∀ t ∈ found.map (·.2), T t := by
    intro t ht
    obtain ⟨p, hp, rfl⟩ := Option.map_eq_some_iff.mp ht
    exact hclauses found hfound p hp
  refine (adds_spanOf d.raw).andThen fun span => (adds_allocate (U.inner rfl) span).bind fun n hn => ?_
  refine (hin.adds (hds d hd).name).bind fun name hname => (adds_set hn _ hname).andThen fun _ => ?_
  have hpush : U.AddsStep (do
      Lower.push owner .declarators n
      return ForInStep.yield PUnit.unit) := (adds_push howner _ hn).andThen fun _ => .pure trivial
  have hinit : U.Adds (fun r => ∀ n ∈ r, U.owns n)
      (declaratorValue g recur forms n d (found.map (·.2))) :=
    adds_declaratorValue hin (hds d hd) hn hclause
  have hvalue := adds_setMaybe hinit hn .initializer hpush
  dsimp only
  split
  · split
    · next clause h =>
        refine (adds_declaratorType hin d (hclause clause h)).bind fun type htype => ?_
        exact (adds_set hn _ htype).andThen fun _ => hvalue
    · exact hvalue
  · exact hvalue

theorem adds_addDeclarators (hin : Inward U recur T) (hraw : T raw) (howner : U.owns owner) :
    U.AddsStep (addDeclarators g recur forms owner raw) := by
  have hread : U.Adds (fun ds => ∀ d ∈ ds, Declarator.In T d)
      (((raw.listItems g).1.filter (·.token?.isNone)).mapM (readDeclarator g forms)) := by
    refine .mapM fun t ht => adds_readDeclarator hin ?_
    exact hin.child hraw (Setting.mem_children_of_mem_items (List.mem_filter.mp ht).1)
  refine hread.bind fun ds hds => ?_
  have hclauses : ∀ o ∈ clausesFrom 0 ds, ∀ p ∈ o, T p.2 := clausesFrom_in hds
  have hloop := adds_variables (g := g) hin howner hds hclauses forms (sharesType ds (clausesFrom 0 ds))
  dsimp only
  split
  · split
    · next d _ k clause _ heq =>
        simp only [Prod.mk.injEq] at heq
        have hmem : some (k, clause) ∈ clausesFrom 0 ds := by simp [heq.2]
        refine (adds_declaratorType hin d (hclauses _ hmem (k, clause) rfl)).bind fun type htype => ?_
        exact (adds_set howner _ htype).andThen fun _ => hloop
    · exact hloop
  · exact hloop

end Declarators

/-! ## Parts -/

section Parts

variable {g : Grammar δ} {c : Cursor δ} {owner : NodeId}

theorem adds_then {x : Lower Unit} (hx : U.AddsStep x) (hc : c.In T) :
    U.Adds (Cursor.In T) (do x; return c) :=
  hx.andThen fun _ => .pure hc

/-- A nested match becomes a child, and reading goes on. -/
theorem adds_setThen (hin : Inward U recur T) (howner : U.owns owner) (t : Title)
    {raw : RawTree δ} (hraw : T raw) (hc : c.In T) :
    U.Adds (Cursor.In T) (do Lower.set owner t (← recur raw); return c) :=
  (hin.adds hraw).bind fun _ hn => adds_then (adds_set howner t hn) hc

/-- Nested matches become children one after the other, and reading goes on. -/
theorem adds_pushThen {make : RawTree δ → Lower NodeId} {ts : List (RawTree δ)}
    (hmake : ∀ t ∈ ts, U.AddsNode (make t)) (howner : U.owns owner) (t : Title) (hc : c.In T) :
    U.Adds (Cursor.In T) (do
      for u in ts do Lower.push owner t (← make u)
      return c) := by
  refine (Maintains.forIn fun u hu => ?_).andThen fun _ => .pure hc
  exact (hmake u hu).bind fun n hn => (adds_push howner t hn).andThen fun _ => .pure trivial

variable [BEq δ]

mutual

theorem adds_readPart (hin : Inward U recur T) (howner : U.owns owner) :
    ∀ (p : Part δ) {raw : RawTree δ} {c : Cursor δ}, p.isQuiet = true ∨ Reports U T → T raw → c.In T →
      U.Adds (Cursor.In T) (readPart g recur owner raw c p)
  | .keep k t, raw, c, hp, hraw, hc => by
      rw [readPart]
      exact (hc.token k).bind fun r hr => adds_then (adds_setToken howner t r.1) hr
  | .keepMaybe k t, raw, c, hp, hraw, hc => by
      rw [readPart]
      have heat := hc.eat k
      match c.eat k, heat with
      | (some tk, c), heat => exact adds_then (adds_setToken howner t tk) heat
      | (none, c), heat => exact .pure heat
  | .keepAny t, raw, c, hp, hraw, hc => by
      rw [readPart]
      exact hc.anyToken.bind fun r hr => adds_then (adds_setToken howner t r.1) hr
  | .close k t, raw, c, hp, hraw, hc => by
      rw [readPart]
      refine (hc.token k).bind fun r hr => (adds_attachTrailing howner _).andThen fun _ => ?_
      exact adds_then (adds_setToken howner t r.1) hr
  | .drop k, raw, c, hp, hraw, hc => by
      rw [readPart]
      exact (hc.token k).bind fun r hr => .pure hr
  | .dropMaybe k, raw, c, hp, hraw, hc => by
      rw [readPart]
      exact .pure (hc.eat k)
  | .dropAny, raw, c, hp, hraw, hc => by
      rw [readPart]
      exact hc.anyToken.bind fun r hr => .pure hr
  | .needless k, raw, c, hp, hraw, hc => by
      rw [readPart]
      have heat := hc.eat k
      have heaten := hc.eaten k
      have hrep := hp.resolve_left Bool.false_ne_true
      match c.eat k, heat, heaten with
      | (some tk, c), heat, heaten => exact adds_then (adds_reportToken hrep (heaten tk rfl)) heat
      | (none, c), heat, _ => exact .pure heat
  | .node t, raw, c, hp, hraw, hc => by
      rw [readPart]
      exact hc.node.bind fun r hr => adds_setThen hin howner t hr.1 hr.2
  | .nodeMaybe t, raw, c, hp, hraw, hc => by
      rw [readPart]
      have heat := hc.eatNode
      match c.eatNode, heat with
      | (some n, c), heat => exact adds_setThen hin howner t (heat.found n rfl) heat.rest
      | (none, c), heat => exact .pure heat.rest
  | .formMaybe d t, raw, c, hp, hraw, hc => by
      rw [readPart]
      have heat := hc.eatForm d
      match c.eatForm d, heat with
      | (some n, c), heat => exact adds_setThen hin howner t (heat.found n rfl) heat.rest
      | (none, c), heat => exact .pure heat.rest
  | .nodes t, raw, c, hp, hraw, hc => by
      rw [readPart]
      obtain ⟨hfound, hrest⟩ := hc.takeNodes none
      exact adds_pushThen (fun u hu => hin.adds (hfound u hu)) howner t hrest
  | .forms d t, raw, c, hp, hraw, hc => by
      rw [readPart]
      obtain ⟨hfound, hrest⟩ := hc.takeNodes (some d)
      exact adds_pushThen (fun u hu => hin.adds (hfound u hu)) howner t hrest
  | .everything t, raw, c, hp, hraw, hc => by
      rw [readPart]
      refine adds_pushThen (fun u hu => adds_child hin (hin.child hraw hu)) howner t ?_
      simp [Cursor.In]
  | .elements t, raw, c, hp, hraw, hc => by
      rw [readPart]
      refine (adds_elements hin hraw g).bind fun ns hns => adds_then (adds_pushAll howner t hns) ?_
      simp [Cursor.In]
  | .list t, raw, c, hp, hraw, hc => by
      rw [readPart]
      refine hc.node.bind fun r hr => (adds_elements hin hr.1 g).bind fun ns hns => ?_
      exact adds_then (adds_pushAll howner t hns) hr.2
  | .body t, raw, c, hp, hraw, hc => by
      rw [readPart]
      refine hc.node.bind fun r hr => ?_
      dsimp only
      split
      · exact adds_reportThen (hp.resolve_left Bool.false_ne_true) hr.1
          (adds_setThen hin howner t hr.1 hr.2)
      · exact adds_setThen hin howner t hr.1 hr.2
  | .resultType t, raw, c, hp, hraw, hc => by
      rw [readPart]
      refine hc.node.bind fun r hr => ?_
      dsimp only
      split
      · exact adds_setThen hin howner t hr.1 hr.2
      · exact .pure hr.2
  | .objectDefault k t, raw, c, hp, hraw, hc => by
      rw [readPart]
      refine Maintains.look.andThen fun missing => ?_
      split
      · split
        · refine (adds_allocate (U.inner rfl) _).bind fun n hn => ?_
          exact adds_then (adds_set howner t hn) hc
        · exact .pure hc
      · exact .pure hc
  | .given k kept parts, raw, c, hp, hraw, hc => by
      rw [readPart]
      have heat := hc.eat k
      match c.eat k, heat with
      | (some tk, c), heat =>
          cases kept with
          | none => exact adds_readParts hin howner parts hp hraw heat
          | some t =>
              refine (adds_setToken howner t tk).andThen fun _ => ?_
              exact adds_readParts hin howner parts hp hraw heat
      | (none, c), heat => exact .pure heat
  | .within d parts, raw, c, hp, hraw, hc => by
      rw [readPart]
      have heat := hc.eatForm d
      match c.eatForm d, heat with
      | (some n, c), heat =>
          have hn := heat.found n rfl
          exact (adds_readParts hin howner parts hp hn (cursor_in hin hn g)).step.andThen
            fun _ => .pure heat.rest
      | (none, c), heat => exact .pure heat.rest
  | .withinAll d parts, raw, c, hp, hraw, hc => by
      rw [readPart]
      obtain ⟨hfound, hrest⟩ := hc.takeNodes (some d)
      refine (Maintains.forIn fun n hn => ?_).andThen fun _ => .pure hrest
      have hn := hfound n hn
      exact (adds_readParts hin howner parts hp hn (cursor_in hin hn g)).step.andThen
        fun _ => .pure trivial
  | .modifiers, raw, c, hp, hraw, hc => by
      rw [readPart]
      refine hc.node.bind fun r hr => (adds_addModifiers _ howner r.1).andThen fun _ => ?_
      exact .pure hr.2
  | .ownModifiers, raw, c, hp, hraw, hc => by
      rw [readPart]
      exact (adds_addModifiers _ howner raw).andThen fun _ => .pure hc
  | .modifierMaybe k, raw, c, hp, hraw, hc => by
      rw [readPart]
      have heat := hc.eat k
      match c.eat k, heat with
      | (some tk, c), heat =>
          exact (adds_modifier tk).bind fun n hn => adds_then (adds_push howner _ hn) heat
      | (none, c), heat => exact .pure heat
  | .propertyModifiers, raw, c, hp, hraw, hc => by
      rw [readPart]
      refine hc.node.bind fun r hr => (adds_addModifiers _ howner r.1).andThen fun _ => ?_
      exact .pure hr.2
  | .impliedAccessors k, raw, c, hp, hraw, hc => by
      rw [readPart]
      dsimp only
      split
      · split
        · refine (adds_allocate (U.inner rfl) _).bind fun n hn => (adds_set howner _ hn).andThen fun _ => ?_
          split
          · exact (adds_allocate (U.inner rfl) _).bind fun n hn => adds_then (adds_set howner _ hn) hc
          · exact .pure hc
        · split
          · exact (adds_allocate (U.inner rfl) _).bind fun n hn => adds_then (adds_set howner _ hn) hc
          · exact .pure hc
      · exact .pure hc
  | .accessors d, raw, c, hp, hraw, hc => by
      rw [readPart]
      obtain ⟨hfound, hrest⟩ := hc.takeNodes (some d)
      refine (Maintains.forIn fun u hu => ?_).andThen fun _ => .pure hrest
      refine (hin.adds (hfound u hu)).bind fun n hn => ?_
      exact (adds_setAccessor howner hn).andThen fun _ => .pure trivial
  | .typeMembers name, raw, c, hp, hraw, hc => by
      rw [readPart]
      obtain ⟨hfound, hrest⟩ := hc.takeNodes none
      refine (Maintains.forIn fun u hu => ?_).andThen fun _ => .pure hrest
      refine (adds_addMember hin (fun t ht => ?_) (hfound u hu) howner).andThen fun _ => .pure trivial
      exact hin.child hraw (List.mem_of_find?_eq_some ht)
  | .headerItems d t, raw, c, hp, hraw, hc => by
      rw [readPart]
      have heat := hc.eatNode
      match c.eatNode, heat with
      | (some n, c), heat =>
          have hn := heat.found n rfl
          dsimp only
          split
          · exact (hin.adds hn).bind fun m hm => adds_then (adds_push howner t hm) heat.rest
          · refine (adds_expressionStatements hin hn g).bind fun ns hns => ?_
            exact adds_then (adds_pushAll howner t hns) heat.rest
      | (none, c), heat => exact .pure heat.rest
  | .declarators suffix asType asNew, raw, c, hp, hraw, hc => by
      rw [readPart]
      exact hc.node.bind fun r hr => adds_then (adds_addDeclarators hin hr.1 howner) hr.2
  | .commentsAfter, raw, c, hp, hraw, hc => by
      rw [readPart]
      exact .read fun _ => adds_then (adds_attachTrailing howner _) hc

theorem adds_readParts (hin : Inward U recur T) (howner : U.owns owner) :
    ∀ (ps : List (Part δ)) {raw : RawTree δ} {c : Cursor δ}, Part.areQuiet ps = true ∨ Reports U T →
      T raw → c.In T →
      U.Adds (Cursor.In T) (readParts g recur owner raw c ps)
  | [], raw, c, hp, hraw, hc => by
      rw [readParts]
      exact .pure hc
  | p :: ps, raw, c, hp, hraw, hc => by
      rw [readParts]
      rw [Part.areQuiet, Bool.and_eq_true] at hp
      refine (adds_readPart hin howner p (hp.imp_left And.left) hraw hc).bind fun c₁ hc₁ => ?_
      exact adds_readParts hin howner ps (hp.imp_left And.right) hraw hc₁

end

end Parts

end Lowering

end DualSyntax
