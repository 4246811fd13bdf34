import DualSyntax.Proofs.Lowering.InnerParts

/-!
# Shapes that are kept up with

A match of any shape is kept up with, provided that the nested matches are, that the kind of node the
shape names may be made, and that the shape is quiet or anything may be reported about the match.
-/

namespace DualSyntax

namespace Shape

variable {δ : Type}

def Makes (kinds : NodeKind → Prop) : Shape δ → Prop
  | .build kind _ | .join kind _ _ => kinds kind
  | _ => True

/-- Shapes that make no node below which namespaces may be declared. -/
def isInner : Shape δ → Bool
  | .build kind _ | .join kind _ _ => !kind.isHost
  | _ => true

def isQuiet : Shape δ → Bool
  | .build _ ps | .join _ _ ps | .extend ps => Part.areQuiet ps
  | _ => true

theorem makes_true (s : Shape δ) : s.Makes fun _ => True := by
  unfold Makes
  split <;> trivial

theorem makes_of_isInner {s : Shape δ} (h : s.isInner = true) : s.Makes (·.isHost = false) := by
  unfold isInner at h
  split at h
  · simpa [Makes] using h
  · simpa [Makes] using h
  · unfold Makes
    split
    · next hne _ => exact absurd rfl (hne _ _)
    · next hne => exact absurd rfl (hne _ _ _)
    · trivial

end Shape

namespace Lowering

open Forest Lower

variable {δ : Type} {U : Upkeep} {recur : Recur δ} {T : RawTree δ → Prop} {g : Grammar δ}
  {raw : RawTree δ} {c : Cursor δ} {n : NodeId}

/-! ## Operands and operators -/

theorem adds_dropTokens (hc : c.In T) (ks : List TokenKind) :
    U.Adds (Cursor.In T) (ks.foldlM (fun c k => do return (← c.token k).2) c) :=
  .foldlM hc fun _ hc k _ => (hc.token k).bind fun _ hr => .pure hr

theorem adds_readOperands (hin : Inward U recur T) (hc : c.In T)
    (operands : List (List TokenKind × Title)) :
    U.Adds (fun r => (∀ p ∈ r.1, U.owns p.2) ∧ r.2.In T) (readOperands recur c operands) := by
  induction operands generalizing c with
  | nil => exact .pure ⟨by simp, hc⟩
  | cons operand operands ih =>
      obtain ⟨tokens, t⟩ := operand
      refine (adds_dropTokens hc tokens).bind fun c hc => hc.node.bind fun r hr => ?_
      refine (hin.adds hr.1).bind fun n hn => (ih hr.2).bind fun others hothers => .pure ?_
      exact ⟨List.forall_mem_cons.mpr ⟨hn, hothers.1⟩, hothers.2⟩

theorem adds_operatorToken (raw : RawTree δ) : U.AddsStep (operatorToken g raw) := by
  unfold operatorToken
  split
  · exact .pure trivial
  · split
    · exact .pure trivial
    · exact .throw _

theorem adds_between {kind : NodeKind} (hkind : U.kinds kind) {left right : NodeId}
    (hleft : U.owns left) (hright : U.owns right) (first kept last : Title) (tk : Token)
    (span : Span) :
    U.AddsNode (do
      let n ← Lower.allocate kind span
      Lower.set n first left
      Lower.setToken n kept tk
      Lower.set n last right
      return n) := by
  refine (adds_allocate hkind span).bind fun n hn => (adds_set hn _ hleft).andThen fun _ => ?_
  refine (adds_setToken hn _ tk).andThen fun _ => (adds_set hn _ hright).andThen fun _ => .pure hn

theorem adds_binaryNode (operator? : TokenKind → Option BinaryOperator) {left right : NodeId}
    (hleft : U.owns left) (hright : U.owns right) (tk : Token) (span : Span) :
    U.AddsNode (binaryNode operator? left tk right span) := by
  unfold binaryNode
  split
  · exact .throw _
  · exact adds_between (U.inner rfl) hleft hright _ _ _ tk span

theorem adds_chainLeft (hin : Inward U recur T) (operator? : TokenKind → Option BinaryOperator)
    {links : List (RawTree δ × RawTree δ)} (hlinks : ∀ p ∈ links, T p.2) {left : NodeId}
    (hleft : U.owns left) (span : Span) :
    U.AddsNode (chainLeft g recur operator? links left span) := by
  induction links generalizing left span with
  | nil => exact .pure hleft
  | cons link links ih =>
      rw [List.forall_mem_cons] at hlinks
      refine (adds_child hin hlinks.1).bind fun right hright => (adds_spanOf _).andThen fun _ => ?_
      refine (adds_operatorToken _).andThen fun tk => ?_
      exact (adds_binaryNode operator? hleft hright tk _).bind fun n hn => ih hlinks.2 hn _

theorem adds_chainRight (hin : Inward U recur T) (operator? : TokenKind → Option BinaryOperator)
    {links : List (RawTree δ × RawTree δ)} (hlinks : ∀ p ∈ links, T p.2) {right : NodeId}
    (hright : U.owns right) (span : Span) :
    U.AddsNode (chainRight g recur operator? links right span) := by
  induction links generalizing right span with
  | nil => exact .pure hright
  | cons link links ih =>
      rw [List.forall_mem_cons] at hlinks
      refine (adds_child hin hlinks.1).bind fun left hleft => (adds_spanOf _).andThen fun _ => ?_
      refine (adds_operatorToken _).andThen fun tk => ?_
      exact (adds_binaryNode operator? hleft hright tk _).bind fun n hn => ih hlinks.2 hn _

theorem adds_chain (hin : Inward U recur T) (hraw : T raw)
    (operator? : TokenKind → Option BinaryOperator) (rightward : Bool) :
    U.AddsNode (chain g recur operator? rightward raw) := by
  have hitems : ∀ t ∈ (raw.listItems g).1, T t := fun t ht =>
    hin.child hraw (Setting.mem_children_of_mem_items ht)
  unfold chain
  generalize raw.listItems g = items at hitems
  obtain ⟨operands, separators⟩ := items
  dsimp only at hitems ⊢
  split
  · split
    · exact .throw _
    · next last hlast =>
        refine (adds_child hin (hitems last (List.mem_of_getLast? hlast))).bind fun n hn => ?_
        refine (adds_spanOf _).andThen fun span => adds_chainRight hin operator? ?_ hn span
        intro p hp
        have hmem := (List.of_mem_zip (List.mem_reverse.mp hp)).2
        exact hitems p.2 (List.mem_of_mem_dropLast hmem)
  · split
    · exact .throw _
    · next first rest =>
        rw [List.forall_mem_cons] at hitems
        refine (adds_child hin hitems.1).bind fun n hn => (adds_spanOf _).andThen fun span => ?_
        exact adds_chainLeft hin operator? (fun p hp => hitems.2 p.2 (List.of_mem_zip hp).2) hn span

theorem adds_applyComparisons (hin : Inward U recur T)
    (operator? : TokenKind → Option BinaryOperator) {ts : List (RawTree δ)} (hts : ∀ t ∈ ts, T t)
    (hn : U.owns n) (span : Span) :
    U.AddsNode (applyComparisons g recur operator? ts n span) := by
  induction ts generalizing n span with
  | nil => exact .pure hn
  | cons t ts ih =>
      rw [List.forall_mem_cons] at hts
      refine (adds_spanOf t).andThen fun _ => (cursor_in hin hts.1 g).anyToken.bind fun r hr => ?_
      obtain ⟨tk, c⟩ := r
      refine hr.node.bind fun r hr => (hin.adds hr.1).bind fun operand hoperand => ?_
      dsimp only
      split
      · exact (adds_between (U.inner rfl) hn hoperand _ _ _ tk _).bind fun m hm => ih hts.2 hm _
      · exact (adds_between (U.inner rfl) hn hoperand _ _ _ tk _).bind fun m hm => ih hts.2 hm _
      · split
        · exact .throw _
        · exact (adds_binaryNode operator? hn hoperand tk _).bind fun m hm => ih hts.2 hm _

/-! ## Types -/

theorem adds_over {kind : NodeKind} (hkind : U.kinds kind) (hn : U.owns n) (t : Title)
    (span : Span) :
    U.AddsNode (do
      let m ← Lower.allocate kind span
      Lower.set m t n
      return m) :=
  (adds_allocate hkind span).bind fun _ hm => (adds_set hm t hn).andThen fun _ => .pure hm

theorem adds_qualify (hin : Inward U recur T) {ts : List (RawTree δ)} (hts : ∀ t ∈ ts, T t)
    (hn : U.owns n) (span : Span) : U.AddsNode (qualify recur ts n span) := by
  induction ts generalizing n span with
  | nil => exact .pure hn
  | cons t ts ih =>
      rw [List.forall_mem_cons] at hts
      refine (adds_child hin hts.1).bind fun name hname => (adds_spanOf t).andThen fun _ => ?_
      refine (adds_allocate (U.inner rfl) _).bind fun m hm => (adds_set hm _ hn).andThen fun _ => ?_
      exact (adds_set hm _ hname).andThen fun _ => ih hts.2 hm _

theorem adds_qualifiedType (hin : Inward U recur T) (hraw : T raw) :
    U.AddsNode (qualifiedType g recur raw) := by
  have hitems : ∀ t ∈ (raw.listItems g).1, T t := fun t ht =>
    hin.child hraw (Setting.mem_children_of_mem_items ht)
  unfold qualifiedType
  split
  · exact .throw _
  · next first rest hlist =>
      rw [hlist, List.forall_mem_cons] at hitems
      refine (adds_child hin hitems.1).bind fun name hname => (adds_spanOf first).andThen fun _ => ?_
      refine (adds_allocate (U.inner rfl) _).bind fun m hm => (adds_set hm _ hname).andThen fun _ => ?_
      exact adds_qualify hin hitems.2 hm _

theorem adds_wrapType (ts : List (RawTree δ)) (hn : U.owns n) (span : Span) :
    U.AddsNode (wrapType g ts n span) := by
  induction ts generalizing n span with
  | nil => exact .pure hn
  | cons t ts ih =>
      refine (adds_spanOf t).andThen fun _ => ?_
      cases t with
      | leaf tk =>
          refine (adds_allocate (U.inner rfl) _).bind fun m hm => (adds_set hm _ hn).andThen fun _ => ?_
          exact ih hm _
      | node => exact (adds_arrayOf hn _ _).bind fun m hm => ih hm _

theorem adds_wrapRanks (ts : List (RawTree δ)) (hn : U.owns n) :
    U.AddsNode (wrapRanks g ts n) := by
  induction ts generalizing n with
  | nil => exact .pure hn
  | cons t ts ih =>
      refine (adds_spanOf t).andThen fun span => ?_
      exact (adds_arrayOf hn t span).bind fun m hm => ih hm

/-- The element of the array type that was read is a new node. -/
theorem adds_listedArray (hin : Inward U recur T) (hraw : T raw) :
    U.AddsNode (listedArray g recur raw) := by
  refine (adds_spanOf raw).andThen fun span => (adds_allocate (U.inner rfl) span).bind fun n hn => ?_
  refine ((cursor_in hin hraw g).token .kwNew).bind fun r hr => ?_
  refine (adds_setToken hn _ r.1).andThen fun _ => hr.node.bind fun q hq => ?_
  refine (hin.adds hq.1).bind fun type htype => ?_
  refine (Maintains.inspect (P := fun e => ∀ n ∈ e, U.owns n) fun _ d hd e he => ?_).bind
    fun element helement => ?_
  · split at he
    · exact U.child hd htype (mem_children_of_child? he)
    · cases he
  · split
    · exact .throw _
    · next e =>
        have he := helement e rfl
        refine (adds_detach he).andThen fun _ => (adds_set hn _ he).andThen fun _ => ?_
        refine hq.2.node.bind fun q hq => (hin.adds hq.1).bind fun init hinit => ?_
        exact (adds_set hn _ hinit).andThen fun _ => .pure hn

/-! ## Statements -/

theorem adds_caseLabel (hin : Inward U recur T) (hraw : T raw) :
    U.AddsNode (caseLabel recur raw) := by
  refine (adds_child hin hraw).bind fun value hvalue => ?_
  refine Maintains.look.andThen fun kind => ?_
  split
  · exact .pure hvalue
  · exact .pure hvalue
  · exact (adds_spanOf raw).andThen fun span => adds_over (U.inner rfl) hvalue _ span

theorem adds_assignmentStatement (hin : Inward U recur T) (hraw : T raw)
    (operator? : TokenKind → Option AssignmentOperator) :
    U.AddsNode (assignmentStatement g recur operator? raw) := by
  refine (adds_spanOf raw).andThen fun span => (adds_allocate (U.inner rfl) span).bind fun s hs => ?_
  refine (cursor_in hin hraw g).node.bind fun r hr => (hin.adds hr.1).bind fun left hleft => ?_
  refine hr.2.anyToken.bind fun r hr => ?_
  dsimp only
  split
  · exact .throw _
  · refine (adds_allocate (U.inner rfl) span).bind fun n hn => (adds_set hn _ hleft).andThen fun _ => ?_
    refine (adds_setToken hn _ r.1).andThen fun _ => hr.node.bind fun q hq => ?_
    refine (hin.adds hq.1).bind fun value hvalue => (adds_set hn _ hvalue).andThen fun _ => ?_
    exact (adds_set hs _ hn).andThen fun _ => .pure hs

theorem adds_loopCondition (hc : c.In T) :
    U.Adds (fun r => (∀ p ∈ r.1, T p.2) ∧ r.2.In T) (loopCondition c) := by
  have heat := hc.eatAny [.kwWhile, .kwUntil]
  unfold loopCondition
  generalize c.eatAny [.kwWhile, .kwUntil] = r at heat ⊢
  obtain ⟨found, c'⟩ := r
  cases found with
  | some tk => exact heat.node.bind fun q hq => .pure ⟨by simpa using hq.1, hq.2⟩
  | none => exact .pure ⟨by simp, heat⟩

theorem adds_doLoop (hin : Inward U recur T) (hraw : T raw) : U.AddsNode (doLoop g recur raw) := by
  refine ((cursor_in hin hraw g).token .kwDo).bind fun r hr => ?_
  obtain ⟨kw, c⟩ := r
  refine (adds_loopCondition hr).bind fun before hbefore => ?_
  refine hbefore.2.node.bind fun body hbody => (hbody.2.token .kwLoop).bind fun r hr => ?_
  refine (adds_loopCondition hr).bind fun behind hbehind => ?_
  have hfinish {n : NodeId} (hn : U.owns n) : U.AddsNode (do
      Lower.set n .embeddedStatement (← recur body.1)
      return n) :=
    (hin.adds hbody.1).bind fun m hm => (adds_set hn _ hm).andThen fun _ => .pure hn
  have hmake (kind : NodeKind) (hkind : U.kinds kind) (condition : RawTree δ)
      (hcondition : T condition) : U.AddsNode (do
        let n ← Lower.allocate kind (← spanOf raw)
        Lower.setToken n .keyword kw
        Lower.set n .condition (← recur condition)
        Lower.set n .embeddedStatement (← recur body.1)
        return n) := by
    refine (adds_spanOf raw).andThen fun span => (adds_allocate hkind span).bind fun n hn => ?_
    refine (adds_setToken hn _ kw).andThen fun _ => (hin.adds hcondition).bind fun m hm => ?_
    exact (adds_set hn _ hm).andThen fun _ => hfinish hn
  obtain ⟨before, c⟩ := before
  obtain ⟨behind, c'⟩ := behind
  match before, behind with
  | some _, some _ => exact .throw _
  | some condition, none => exact hmake _ (U.inner rfl) condition.2 (hbefore.1 condition rfl)
  | none, some condition => exact hmake _ (U.inner rfl) condition.2 (hbehind.1 condition rfl)
  | none, none =>
      refine (adds_spanOf raw).andThen fun span => (adds_allocate (U.inner rfl) span).bind fun n hn => ?_
      exact (adds_setToken hn _ kw).andThen fun _ => hfinish hn

theorem adds_caseBlock (hin : Inward U recur T) (hraw : T raw) : U.AddsNode (caseBlock g recur raw) := by
  refine (adds_spanOf raw).andThen fun span => (adds_allocate (U.inner rfl) span).bind fun n hn => ?_
  refine ((cursor_in hin hraw g).token .kwCase).bind fun r hr => ?_
  obtain ⟨kw, c⟩ := r
  have heat := hr.eat .kwElse
  dsimp only
  generalize c.eat .kwElse = q at heat ⊢
  have hrest {c : Cursor δ} (hc : c.In T) : U.AddsNode (do
      for s in (← c.node).1.children do Lower.push n .statements (← child recur s)
      return n) := by
    refine hc.node.bind fun q hq => (Maintains.forIn fun s hs => ?_).andThen fun _ => .pure hn
    refine (adds_child hin (hin.child hq.1 hs)).bind fun m hm => ?_
    exact (adds_push hn _ hm).andThen fun _ => .pure trivial
  obtain ⟨found, c⟩ := q
  cases found with
  | some _ =>
      refine (adds_allocate (U.inner rfl) _).bind fun label hlabel => ?_
      refine (adds_setToken hlabel _ kw).andThen fun _ => (adds_push hn _ hlabel).andThen fun _ => ?_
      exact hrest heat
  | none =>
      refine heat.node.bind fun q hq => (Maintains.forIn fun t ht => ?_).andThen fun _ => hrest hq.2
      have ht := hin.child hq.1 (Setting.mem_children_of_mem_items ht)
      exact (adds_caseLabel hin ht).bind fun m hm => (adds_push hn _ hm).andThen fun _ => .pure trivial

/-! ## Nodes with parts -/

variable [BEq δ]

theorem adds_build (hin : Inward U recur T) (hraw : T raw) (hc : c.In T) {kind : NodeKind}
    (hkind : U.kinds kind) {parts : List (Part δ)}
    (hparts : Part.areQuiet parts = true ∨ Reports U T) :
    U.AddsNode (build g recur raw c kind parts) := by
  refine (adds_spanOf raw).andThen fun span => (adds_allocate hkind span).bind fun n hn => ?_
  exact (adds_readParts hin hn parts hparts hraw hc).step.andThen fun _ => .pure hn

theorem adds_join (hin : Inward U recur T) (hraw : T raw) {kind : NodeKind} (hkind : U.kinds kind)
    (operands : List (List TokenKind × Title)) {parts : List (Part δ)}
    (hparts : Part.areQuiet parts = true ∨ Reports U T) :
    U.AddsNode (join g recur raw kind operands parts) := by
  refine (adds_readOperands hin (cursor_in hin hraw g) operands).bind fun made hmade => ?_
  refine (adds_spanOf raw).andThen fun span => (adds_allocate hkind span).bind fun n hn => ?_
  refine (Maintains.forIn fun p hp => ?_).andThen fun _ => ?_
  · exact (adds_set hn _ (hmade.1 p hp)).andThen fun _ => .pure trivial
  · exact (adds_readParts hin hn parts hparts hraw hmade.2).step.andThen fun _ => .pure hn

theorem adds_applySuffix (hin : Inward U recur T) {target : NodeId} (htarget : U.owns target)
    (hraw : T raw) (span : Span) : U.AddsNode (applySuffix g recur target raw span) := by
  refine (cursor_in hin hraw g).anyToken.bind fun r hr => ?_
  obtain ⟨tk, c⟩ := r
  -- a node over the target that keeps the token and then reads parts
  have hkeep {kind : NodeKind} (hkind : U.kinds kind) (title kept : Title)
      {next : NodeId → Lower NodeId} (hnext : ∀ n, U.owns n → U.AddsNode (next n)) :
      U.AddsNode (do
        let n ← Lower.allocate kind span
        Lower.set n title target
        Lower.setToken n kept tk
        next n) := by
    refine (adds_allocate hkind span).bind fun n hn => (adds_set hn _ htarget).andThen fun _ => ?_
    exact (adds_setToken hn _ tk).andThen fun _ => hnext n hn
  have hread {parts : List (Part δ)} (hparts : Part.areQuiet parts = true) (n : NodeId)
      (hn : U.owns n) : U.AddsNode (do
        let _ ← readParts g recur n raw c parts
        return n) :=
    (adds_readParts hin hn parts (.inl hparts) hraw hr).step.andThen fun _ => .pure hn
  dsimp only
  simp only [bind_assoc, pure_bind]
  split
  · exact hkeep (U.inner rfl) _ _ (hread rfl)
  · exact hkeep (U.inner rfl) _ _ (hread rfl)
  · exact hkeep (U.inner rfl) _ _ (hread rfl)
  · exact hkeep (U.inner rfl) _ _ (hread rfl)
  · exact hkeep (U.inner rfl) _ _ fun n hn => .pure hn
  · exact hkeep (U.inner rfl) _ _ fun n hn => .pure hn
  · exact .throw _

theorem adds_applySuffixes (hin : Inward U recur T) {ts : List (RawTree δ)} (hts : ∀ t ∈ ts, T t)
    (hn : U.owns n) (span : Span) : U.AddsNode (applySuffixes g recur ts n span) := by
  induction ts generalizing n span with
  | nil => exact .pure hn
  | cons t ts ih =>
      rw [List.forall_mem_cons] at hts
      refine (adds_spanOf t).andThen fun _ => ?_
      exact (adds_applySuffix hin hn hts.1 _).bind fun m hm => ih hts.2 hm _

/-- What follows the sizes of an array: its further ranks and its elements. -/
theorem adds_afterSizes (hin : Inward U recur T) (hc : c.In T) {n type : NodeId} (hn : U.owns n)
    (htype : U.owns type) {sizes : List NodeId} (hsizes : ∀ m ∈ sizes, U.owns m) (rank : δ) :
    U.AddsNode (do
      pushAll n .arguments sizes
      let (ranks, c) := c.takeNodes (some rank)
      Lower.set n .type (← wrapRanks g ranks type)
      if let (some init, _) := c.eatNode then Lower.set n .initializer (← recur init)
      return n) := by
  have htake := (hc.takeNodes (some rank)).2
  generalize c.takeNodes (some rank) = taken at htake ⊢
  refine (adds_pushAll hn _ hsizes).andThen fun _ => ?_
  refine (adds_wrapRanks _ htype).bind fun m hm => (adds_set hn _ hm).andThen fun _ => ?_
  have heat := htake.eatNode
  dsimp only
  generalize taken.2.eatNode = q at heat ⊢
  obtain ⟨init, c'⟩ := q
  cases init with
  | some init =>
      refine (hin.adds (heat.found init rfl)).bind fun m hm => ?_
      exact (adds_set hn _ hm).andThen fun _ => .pure hn
  | none => exact .pure hn

theorem adds_sizedArray (hin : Inward U recur T) (hraw : T raw) (rank : δ)
    (bounds : Option ArrayBounds) : U.AddsNode (sizedArray g recur rank bounds raw) := by
  refine ((cursor_in hin hraw g).token .kwNew).bind fun r hr => ?_
  obtain ⟨kw, c⟩ := r
  have hmake (bounds : ArrayBounds) : U.AddsNode (do
      let n ← Lower.allocate (.arrayCreateExpression bounds) (← spanOf raw)
      Lower.setToken n .keyword kw
      return n) := by
    refine (adds_spanOf raw).andThen fun span => (adds_allocate (U.inner rfl) span).bind fun n hn => ?_
    exact (adds_setToken hn _ kw).andThen fun _ => .pure hn
  have hearly : U.Adds (fun r => ∀ n ∈ r, U.owns n) (bounds.mapM fun bounds => do
      let n ← Lower.allocate (.arrayCreateExpression bounds) (← spanOf raw)
      Lower.setToken n .keyword kw
      return n) := by
    cases bounds with
    | none => exact .pure (by simp)
    | some bounds => exact (hmake bounds).bind fun n hn => .pure (by simpa using hn)
  refine hearly.bind fun early hearly => hr.node.bind fun q hq => ?_
  refine (hin.adds hq.1).bind fun type htype => hq.2.anyToken.bind fun r hr => ?_
  refine hr.node.bind fun q hq => (adds_elements hin hq.1 g).bind fun sizes hsizes => ?_
  refine hq.2.anyToken.bind fun r hr => ?_
  cases early with
  | some n => exact adds_afterSizes hin hr (hearly n rfl) htype hsizes rank
  | none => exact (hmake _).bind fun n hn => adds_afterSizes hin hr hn htype hsizes rank

theorem adds_elseIfs (hin : Inward U recur T) {ts : List (RawTree δ)} (hts : ∀ t ∈ ts, T t)
    {tail : Option NodeId} (htail : ∀ n ∈ tail, U.owns n) :
    U.Adds (fun r => ∀ n ∈ r, U.owns n) (elseIfs g recur ts tail) := by
  induction ts generalizing tail with
  | nil => exact .pure htail
  | cons t ts ih =>
      rw [List.forall_mem_cons] at hts
      refine (adds_build hin hts.1 (cursor_in hin hts.1 g) (U.inner rfl) (.inl rfl)).bind fun n hn => ?_
      have hrest : U.Adds (fun r => ∀ n ∈ r, U.owns n) (elseIfs g recur ts (some n)) :=
        ih hts.2 (by simpa using hn)
      match tail with
      | some m => exact (adds_set hn _ (htail m rfl)).andThen fun _ => hrest
      | none => exact hrest

theorem adds_ifBlock (hin : Inward U recur T) (hraw : T raw) (elseIf elsePart : δ) :
    U.AddsNode (ifBlock g recur elseIf elsePart raw) := by
  refine (adds_spanOf raw).andThen fun span => (adds_allocate (U.inner rfl) span).bind fun n hn => ?_
  refine (adds_readParts hin hn _ (.inl rfl) hraw (cursor_in hin hraw g)).bind fun c hc => ?_
  obtain ⟨hparts, hrest⟩ := hc.takeNodes (some elseIf)
  have hlast := hrest.eatForm elsePart
  dsimp only
  generalize (c.takeNodes (some elseIf)).2.eatForm elsePart = q at hlast ⊢
  obtain ⟨last, c'⟩ := q
  have hend : U.AddsNode (do
      let _ ← readParts g recur n raw c' [.keep .kwEnd .endKeyword]
      return n) :=
    (adds_readParts hin hn _ (.inl rfl) hraw hlast.rest).step.andThen fun _ => .pure hn
  have htail {tail : Option NodeId} (htail : ∀ n ∈ tail, U.owns n) :=
    adds_setMaybe (adds_elseIfs (g := g) hin (fun t ht => hparts t (List.mem_reverse.mp ht)) htail) hn
      .falseStatement hend
  cases last with
  | some part =>
      refine ((cursor_in hin (hlast.found part rfl) g).token .kwElse).bind fun r hr => ?_
      refine hr.node.bind fun q hq => (hin.adds hq.1).bind fun m hm => ?_
      exact htail (by simpa using hm)
  | none => exact htail (by simp)

theorem adds_rankedParameter (hin : Inward U recur T) (hraw : T raw) (passing : ParameterModifier)
    (rank clause : δ) : U.AddsNode (rankedParameter g recur passing rank clause raw) := by
  refine (adds_spanOf raw).andThen fun span => (adds_allocate (U.inner rfl) span).bind fun n hn => ?_
  have hc : Cursor.In T { cursor g raw with
      rest := (cursor g raw).rest.dropWhile (·.token?.isSome) } :=
    fun t ht => cursor_in hin hraw g t ((List.dropWhile_sublist _).mem ht)
  refine hc.node.bind fun r hr => (hin.adds hr.1).bind fun name hname => ?_
  refine (adds_set hn _ hname).andThen fun _ => ?_
  have hrank := hr.2.eatForm rank
  dsimp only
  generalize r.2.eatForm rank = q at hrank ⊢
  obtain ⟨rankRaw, c₁⟩ := q
  have hclause := hrank.rest.eatForm clause
  dsimp only at hclause ⊢
  generalize c₁.eatForm clause = q at hclause ⊢
  have hend {c : Cursor δ} (hc : c.In T) : U.AddsNode (do
      let _ ← readParts g recur n raw c [.given .eq (some .assign) [.node .defaultExpression]]
      return n) :=
    (adds_readParts hin hn _ (.inl rfl) hraw hc).step.andThen fun _ => .pure hn
  match q with
  | (none, c) => exact hend hclause.rest
  | (some clauseRaw, c) =>
      refine (adds_clauseType hin (hclause.found clauseRaw rfl)).bind fun type htype => ?_
      match rankRaw with
      | none => exact (adds_set hn _ htype).andThen fun _ => hend hclause.rest
      | some r =>
          refine (adds_spanOf r).andThen fun span => (adds_arrayOf htype r span).bind fun m hm => ?_
          exact (adds_set hn _ hm).andThen fun _ => hend hclause.rest

/-! ## All shapes -/

theorem adds_shaped (hin : Inward U recur T) (hraw : T raw) {s : Shape δ} (hs : s.Makes U.kinds)
    (hquiet : s.isQuiet = true ∨ Reports U T) : U.AddsNode (shaped g recur raw s) := by
  have hc := cursor_in hin hraw g
  cases s with
  | forward =>
      simp only [shaped]
      split
      · next only hchildren => exact adds_child hin (hin.child hraw (by simp [hchildren]))
      · exact .throw _
  | identifier => exact hc.anyToken.bind fun r _ => adds_identifier r.1
  | literal =>
      simp only [shaped]
      split
      · exact adds_literal _
      · exact .throw _
  | knownType =>
      simp only [shaped]
      split
      · exact .throw _
      · split
        · exact adds_allocate (U.inner rfl) _
        · exact .throw _
  | build kind parts => exact adds_build hin hraw hc hs hquiet
  | join kind operands parts => exact adds_join hin hraw hs operands hquiet
  | extend parts =>
      refine hc.node.bind fun r hr => (hin.adds hr.1).bind fun n hn => ?_
      exact (adds_readParts hin hn parts hquiet hraw hr.2).step.andThen fun _ => .pure hn
  | chain operator? rightward => exact adds_chain hin hraw operator? rightward
  | qualifiedType => exact adds_qualifiedType hin hraw
  | rankedType =>
      refine hc.node.bind fun r hr => (hin.adds hr.1).bind fun n hn => ?_
      exact (adds_spanOf r.1).andThen fun span => adds_wrapType _ hn span
  | suffixed =>
      refine hc.node.bind fun r hr => (hin.adds hr.1).bind fun n hn => ?_
      exact (adds_spanOf r.1).andThen fun span => adds_applySuffixes hin hr.2 hn span
  | comparisons operator? =>
      refine hc.node.bind fun r hr => (hin.adds hr.1).bind fun n hn => ?_
      exact (adds_spanOf r.1).andThen fun span => adds_applyComparisons hin operator? hr.2 hn span
  | sizedArray rank bounds => exact adds_sizedArray hin hraw rank bounds
  | listedArray => exact adds_listedArray hin hraw
  | ifBlock elseIf elsePart => exact adds_ifBlock hin hraw elseIf elsePart
  | doLoop => exact adds_doLoop hin hraw
  | caseBlock => exact adds_caseBlock hin hraw
  | assignment operator? => exact adds_assignmentStatement hin hraw operator?
  | rankedParameter passing rank clause => exact adds_rankedParameter hin hraw passing rank clause
  | refused => exact .throw _

/-! ## Trees -/

omit [BEq δ] in
theorem adds_wholeText (hin : Inward U recur T) (hraw : T raw) : U.AddsNode (wholeText recur raw) := by
  unfold wholeText
  split
  · exact .throw _
  · next inner hinner =>
      have hmem : inner ∈ raw.children := List.mem_of_find?_eq_some hinner
      refine (hin.adds (hin.child hraw hmem)).bind fun n hn => Maintains.look.andThen fun isUnit => ?_
      split
      · split
        · exact (adds_attachTrailing hn _).andThen fun _ => .pure hn
        · exact .pure hn
      · exact .pure hn

/-- Trees whose children are such trees again and whose shapes are kept up with. -/
structure Accepts (g : Grammar δ) (U : Upkeep) (T : RawTree δ → Prop) : Prop where
  child : ∀ {t c}, T t → c ∈ t.children → T c
  makes : ∀ {d i j cs}, T (.node (some d) i j cs) → ∀ tokens, (g.shape d tokens).Makes U.kinds
  quiet : ∀ {d i j cs}, T (.node (some d) i j cs) → ∀ tokens,
    (g.shape d tokens).isQuiet = true ∨ Reports U T

/-- Lowering a tree is kept up with. -/
theorem adds_lowerUpTo (hT : Accepts g U T) (fuel : Nat) {t : RawTree δ} (ht : T t) :
    U.AddsNode (lowerUpTo g fuel t) := by
  induction fuel generalizing t with
  | zero => exact .throw _
  | succ fuel ih =>
      have hin : Inward U (lowerUpTo g fuel) T := ⟨hT.child, ih⟩
      match t with
      | .leaf tk => exact adds_token tk
      | .node none .. => exact adds_wholeText hin ht
      | .node (some d) .. =>
          refine (adds_shaped hin ht (hT.makes ht _) (hT.quiet ht _)).bind fun n hn => ?_
          split
          · exact (adds_attachLeading hn _).andThen fun _ => .pure hn
          · exact .pure hn

omit [BEq δ]

/-- A conforming tree that is a token or a match of one of some definitions. -/
structure Matches (g : Grammar δ) (forms : δ → Bool) (t : RawTree δ) : Prop where
  conforms : Conforms g t
  symbol : (t.symbol.isToken || t.symbol.isFormOf forms) = true

theorem Matches.of_nests {s : Survey δ} {d : δ} {i j : Nat} {cs : List (RawTree δ)} {forms : δ → Bool}
    (h : Conforms s.grammar (.node (some d) i j cs)) (hd : s.nests forms d = true) {c : RawTree δ}
    (hc : c ∈ cs) : Matches s.grammar forms c := by
  cases h with
  | node hrule hspells hcs =>
      simp only [Survey.nests, hrule, Option.any_some] at hd
      refine ⟨hcs c hc, ?_⟩
      exact hspells.every (by simpa [Rule.everyAll] using hd) _ (List.mem_map_of_mem hc)

theorem Matches.child {s : Survey δ} {forms : δ → Bool}
    (hnests : ∀ {d}, forms d = true → s.nests forms d = true) {t c : RawTree δ}
    (ht : Matches s.grammar forms t) (hc : c ∈ t.children) : Matches s.grammar forms c := by
  match t with
  | .leaf _ => cases hc
  | .node none .. => cases ht.symbol
  | .node (some d) .. => exact .of_nests ht.conforms (hnests ht.symbol) hc

/-- Definitions that make no node below which namespaces may be declared, and that nest only such
definitions. -/
structure Survey.Seals (s : Survey δ) (inner : δ → Bool) : Prop where
  shape : ∀ {d}, inner d = true → ∀ tokens, (s.grammar.shape d tokens).isInner = true
  nests : ∀ {d}, inner d = true → s.nests inner d = true

/-- A match of a sealed definition adds inner nodes. -/
theorem Survey.Seals.accepts {s : Survey δ} {inner : δ → Bool} (hs : s.Seals inner) (f : Forest) :
    Accepts s.grammar (.gains f) (Matches s.grammar inner) where
  child ht hc := ht.child hs.nests hc
  makes ht tokens := Shape.makes_of_isInner (hs.shape ht.symbol tokens)
  quiet _ _ := .inr ⟨fun _ h => h, fun _ h => h⟩

end Lowering

end DualSyntax
