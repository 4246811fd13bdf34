import DualSyntax.Proofs.Mirroring.Parts

/-!
# Lowering in two runs

Raw trees that are alike become nodes of a pair, for every grammar whose shapes keep nothing under a
title for comments.
-/

namespace DualSyntax

def Shape.isPlain {δ : Type} : Shape δ → Bool
  | .forward | .identifier | .literal | .knownType | .chain .. | .qualifiedType | .rankedType
  | .suffixed | .comparisons _ | .sizedArray .. | .listedArray | .refused _ => true
  | .build kind parts => !kind.isLiteral && Part.arePlain parts
  | .join kind operands parts =>
    !kind.isLiteral && operands.all (!·.2.isTrivia) && Part.arePlain parts
  | .extend parts => Part.arePlain parts
  | _ => false

namespace Lowering

open Forest Lower RawTree

variable {δ : Type} {source source' : Source} {ρ : Pairing} {g : Grammar δ}
  {recur recur' : Recur δ} {raw raw' : RawTree δ} {c c' : Cursor δ} {left left' : NodeId}

/-! ## Operands and operators -/

theorem mirrors_dropTokens (hc : c.Alike c') (ks : List TokenKind) :
    MirrorsCursor source source' ρ (ks.foldlM (fun c k => do return (← c.token k).2) c)
      (ks.foldlM (fun c k => do return (← c.token k).2) c') := by
  induction ks generalizing ρ c c' with
  | nil => exact .pure hc
  | cons k ks ih =>
      rw [List.foldlM_cons, List.foldlM_cons]
      refine Mirrors.bind (R := fun _ c c' => c.Alike c') ?_ fun ρ₁ _ c₁ c₁' hc₁ => ih hc₁
      exact (hc.token k).bind fun _ _ _ _ hr => .pure hr.2

def OperandPair (ρ : Pairing) (p p' : Title × NodeId) : Prop :=
  p.1 = p'.1 ∧ p.1.isTrivia = false ∧ ρ p.2 p'.2

theorem mirrors_readOperands (hrecur : RecurMirrors source source' recur recur') (hc : c.Alike c')
    {operands : List (List TokenKind × Title)}
    (hoperands : operands.all (!·.2.isTrivia) = true) :
    Mirrors source source'
      (fun ρ r r' => List.Forall₂ (OperandPair ρ) r.1 r'.1 ∧ r.2.Alike r'.2) ρ
      (readOperands recur c operands) (readOperands recur' c' operands) := by
  induction operands generalizing ρ c c' with
  | nil => exact .pure ⟨.nil, hc⟩
  | cons operand operands ih =>
      obtain ⟨tokens, t⟩ := operand
      rw [List.all_cons, Bool.and_eq_true, Bool.not_eq_true'] at hoperands
      refine (mirrors_dropTokens hc tokens).bind fun ρ₁ _ c₁ c₁' hc₁ => ?_
      refine hc₁.node.bind fun ρ₂ _ r r' hr => ?_
      refine (hrecur ρ₂ _ _ hr.1).bind fun ρ₃ _ n n' hn => ?_
      refine (ih hr.2 hoperands.2).bind fun ρ₄ hρ₄ others others' hothers => ?_
      exact .pure ⟨.cons ⟨rfl, hoperands.1, hρ₄ _ _ hn⟩ hothers.1, hothers.2⟩

theorem mirrors_operatorToken (h : raw.Alike raw') :
    Mirrors source source' (fun _ => Token.Alike) ρ (operatorToken g raw) (operatorToken g raw') := by
  cases h with
  | leaf htoken => exact .pure htoken
  | node form i j hcs =>
      have htokens := (Alike.node form i j hcs).childTokens
      simp only [operatorToken]
      revert htokens
      generalize (RawTree.node form i j _).childTokens = ts
      generalize (RawTree.node form i j _).childTokens = ts'
      rintro (_ | ⟨htoken, _⟩)
      · exact .throw_left _ _
      · exact .pure htoken

def LinkPair (p p' : RawTree δ × RawTree δ) : Prop := p.1.Alike p'.1 ∧ p.2.Alike p'.2

theorem forall₂_zip_alike {xs xs' ys ys' : List (RawTree δ)} (hx : List.Forall₂ Alike xs xs')
    (hy : List.Forall₂ Alike ys ys') : List.Forall₂ LinkPair (xs.zip ys) (xs'.zip ys') := by
  induction hx generalizing ys ys' with
  | nil => exact .nil
  | cons hx _ ih =>
      cases hy with
      | nil => exact .nil
      | cons hy hys => exact .cons ⟨hx, hy⟩ (ih hys)

/-! ## Chains of operators and comparisons -/

theorem mirrors_between {right right' : NodeId} (hleft : ρ left left') (hright : ρ right right')
    {tk tk' : Token} (htk : tk.Alike tk') {kind : NodeKind} (hkind : kind.isLiteral = false)
    {first kept last : Title} (hfirst : first.isTrivia = false) (hkept : kept.isTrivia = false)
    (hlast : last.isTrivia = false) (span span' : Span) :
    MirrorsNode source source' ρ
      (do
        let n ← Lower.allocate kind span
        Lower.set n first left
        Lower.setToken n kept tk
        Lower.set n last right
        return n)
      (do
        let n ← Lower.allocate kind span'
        Lower.set n first left'
        Lower.setToken n kept tk'
        Lower.set n last right'
        return n) := by
  refine (mirrors_allocate (.of_not_isLiteral hkind) _ _).bind fun ρ₁ hρ₁ n n' hn => ?_
  refine (mirrors_set hn hfirst (hρ₁ _ _ hleft)).bind fun ρ₂ hρ₂ _ _ _ => ?_
  refine (mirrors_setToken (hρ₂ _ _ hn) hkept htk).bind fun ρ₃ hρ₃ _ _ _ => ?_
  have hright₃ := hρ₃ _ _ (hρ₂ _ _ (hρ₁ _ _ hright))
  refine (mirrors_set (hρ₃ _ _ (hρ₂ _ _ hn)) hlast hright₃).bind fun ρ₄ hρ₄ _ _ _ => ?_
  exact .pure (hρ₄ _ _ (hρ₃ _ _ (hρ₂ _ _ hn)))

theorem mirrors_binaryNode (operator? : TokenKind → Option BinaryOperator) {right right' : NodeId}
    (hleft : ρ left left') (hright : ρ right right') {tk tk' : Token} (htk : tk.Alike tk')
    (span span' : Span) :
    MirrorsNode source source' ρ (binaryNode operator? left tk right span)
      (binaryNode operator? left' tk' right' span') := by
  unfold binaryNode
  rw [htk.kind]
  split
  · exact .throw_left _ _
  · exact mirrors_between hleft hright htk rfl rfl rfl rfl _ _

theorem mirrors_chainLeft (hrecur : RecurMirrors source source' recur recur')
    (operator? : TokenKind → Option BinaryOperator) {links links' : List (RawTree δ × RawTree δ)}
    (hlinks : List.Forall₂ LinkPair links links') (hleft : ρ left left') (span span' : Span) :
    MirrorsNode source source' ρ (chainLeft g recur operator? links left span)
      (chainLeft g recur' operator? links' left' span') := by
  induction hlinks generalizing ρ left left' span span' with
  | nil => exact .pure hleft
  | @cons link link' _ _ hlink _ ih =>
      refine (mirrors_child hrecur hlink.2).bind fun ρ₁ hρ₁ right right' hright => ?_
      refine (mirrors_spanOf link.2 link'.2).bind fun ρ₂ hρ₂ _ _ _ => ?_
      refine (mirrors_operatorToken hlink.1).bind fun ρ₃ hρ₃ tk tk' htk => ?_
      have hleft₃ := hρ₃ _ _ (hρ₂ _ _ (hρ₁ _ _ hleft))
      have hright₃ := hρ₃ _ _ (hρ₂ _ _ hright)
      refine (mirrors_binaryNode operator? hleft₃ hright₃ htk _ _).bind fun ρ₄ _ n n' hn => ?_
      exact ih hn _ _

theorem mirrors_chainRight (hrecur : RecurMirrors source source' recur recur')
    (operator? : TokenKind → Option BinaryOperator) {links links' : List (RawTree δ × RawTree δ)}
    (hlinks : List.Forall₂ LinkPair links links') {right right' : NodeId} (hright : ρ right right')
    (span span' : Span) :
    MirrorsNode source source' ρ (chainRight g recur operator? links right span)
      (chainRight g recur' operator? links' right' span') := by
  induction hlinks generalizing ρ right right' span span' with
  | nil => exact .pure hright
  | @cons link link' _ _ hlink _ ih =>
      refine (mirrors_child hrecur hlink.2).bind fun ρ₁ hρ₁ left left' hleft => ?_
      refine (mirrors_spanOf link.2 link'.2).bind fun ρ₂ hρ₂ _ _ _ => ?_
      refine (mirrors_operatorToken hlink.1).bind fun ρ₃ hρ₃ tk tk' htk => ?_
      have hleft₃ := hρ₃ _ _ (hρ₂ _ _ hleft)
      have hright₃ := hρ₃ _ _ (hρ₂ _ _ (hρ₁ _ _ hright))
      refine (mirrors_binaryNode operator? hleft₃ hright₃ htk _ _).bind fun ρ₄ _ n n' hn => ?_
      exact ih hn _ _

theorem rel_head? {α : Type} {R : α → α → Prop} {xs ys : List α} (h : List.Forall₂ R xs ys) :
    Option.Rel R xs.head? ys.head? := by
  cases h with
  | nil => exact .none
  | cons hx _ => exact .some hx

theorem rel_getLast? {α : Type} {R : α → α → Prop} {xs ys : List α} (h : List.Forall₂ R xs ys) :
    Option.Rel R xs.getLast? ys.getLast? := by
  rw [← List.head?_reverse, ← List.head?_reverse]
  exact rel_head? (List.forall₂_reverse_iff.mpr h)

theorem mirrors_chain (hrecur : RecurMirrors source source' recur recur')
    (operator? : TokenKind → Option BinaryOperator) (rightward : Bool) (h : raw.Alike raw') :
    MirrorsNode source source' ρ (chain g recur operator? rightward raw)
      (chain g recur' operator? rightward raw') := by
  obtain ⟨hoperands, hseparators⟩ := h.listItems g
  unfold chain
  generalize raw.listItems g = items at *
  generalize raw'.listItems g = items' at *
  obtain ⟨operands, separators⟩ := items
  obtain ⟨operands', separators'⟩ := items'
  dsimp only at hoperands hseparators ⊢
  cases rightward with
  | true =>
      have hlast := rel_getLast? hoperands
      revert hlast
      generalize operands.getLast? = last
      generalize operands'.getLast? = last'
      rintro (⟨hlast⟩ | _)
      · refine (mirrors_child hrecur hlast).bind fun ρ₁ hρ₁ n n' hn => ?_
        refine (mirrors_spanOf _ _).bind fun ρ₂ hρ₂ _ _ _ => ?_
        refine mirrors_chainRight hrecur operator? ?_ (hρ₂ _ _ hn) _ _
        refine List.forall₂_reverse_iff.mpr (forall₂_zip_alike hseparators ?_)
        rw [List.dropLast_eq_take, List.dropLast_eq_take, hoperands.length_eq]
        exact List.forall₂_take _ hoperands
      · exact .throw_left _ _
  | false =>
      cases hoperands with
      | nil => exact .throw_left _ _
      | @cons first first' _ _ hfirst hrest =>
          refine (mirrors_child hrecur hfirst).bind fun ρ₁ hρ₁ n n' hn => ?_
          refine (mirrors_spanOf first first').bind fun ρ₂ hρ₂ _ _ _ => ?_
          exact mirrors_chainLeft hrecur operator? (forall₂_zip_alike hseparators hrest)
            (hρ₂ _ _ hn) _ _

theorem mirrors_applyComparisons (hrecur : RecurMirrors source source' recur recur')
    (operator? : TokenKind → Option BinaryOperator) {ts ts' : List (RawTree δ)}
    (hts : List.Forall₂ Alike ts ts') (hleft : ρ left left') (span span' : Span) :
    MirrorsNode source source' ρ (applyComparisons g recur operator? ts left span)
      (applyComparisons g recur' operator? ts' left' span') := by
  induction hts generalizing ρ left left' span span' with
  | nil => exact .pure hleft
  | @cons t t' _ _ ht _ ih =>
      refine (mirrors_spanOf t t').bind fun ρ₁ hρ₁ _ _ _ => ?_
      refine (cursor_alike ht g).anyToken.bind fun ρ₂ hρ₂ r r' hr => ?_
      obtain ⟨tk, c⟩ := r
      obtain ⟨tk', c'⟩ := r'
      obtain ⟨htk, hc⟩ := hr
      refine hc.node.bind fun ρ₃ hρ₃ r r' hr => ?_
      refine (hrecur ρ₃ _ _ hr.1).bind fun ρ₄ hρ₄ operand operand' hoperand => ?_
      have hleft₄ := hρ₄ _ _ (hρ₃ _ _ (hρ₂ _ _ (hρ₁ _ _ hleft)))
      have hkind : (tk, c).1.kind = tk'.kind := htk.kind
      dsimp only
      rw [hkind]
      split
      · exact (mirrors_between hleft₄ hoperand htk rfl rfl rfl rfl _ _).bind
          fun _ _ n n' hn => ih hn _ _
      · exact (mirrors_between hleft₄ hoperand htk rfl rfl rfl rfl _ _).bind
          fun _ _ n n' hn => ih hn _ _
      · split
        · exact .throw_left _ _
        · exact (mirrors_binaryNode operator? hleft₄ hoperand htk _ _).bind
            fun _ _ n n' hn => ih hn _ _

/-! ## Types -/

theorem mirrors_qualify (hrecur : RecurMirrors source source' recur recur')
    {ts ts' : List (RawTree δ)} (hts : List.Forall₂ Alike ts ts') {target target' : NodeId}
    (htarget : ρ target target') (span span' : Span) :
    MirrorsNode source source' ρ (qualify recur ts target span)
      (qualify recur' ts' target' span') := by
  induction hts generalizing ρ target target' span span' with
  | nil => exact .pure htarget
  | @cons t t' _ _ ht _ ih =>
      refine (mirrors_child hrecur ht).bind fun ρ₁ hρ₁ name name' hname => ?_
      refine (mirrors_spanOf t t').bind fun ρ₂ hρ₂ _ _ _ => ?_
      refine (mirrors_allocate (.of_not_isLiteral rfl) _ _).bind fun ρ₃ hρ₃ n n' hn => ?_
      have htarget₃ := hρ₃ _ _ (hρ₂ _ _ (hρ₁ _ _ htarget))
      refine (mirrors_set hn rfl htarget₃).bind fun ρ₄ hρ₄ _ _ _ => ?_
      have hname₄ := hρ₄ _ _ (hρ₃ _ _ (hρ₂ _ _ hname))
      refine (mirrors_set (hρ₄ _ _ hn) rfl hname₄).bind fun ρ₅ hρ₅ _ _ _ => ?_
      exact ih (hρ₅ _ _ (hρ₄ _ _ hn)) _ _

theorem mirrors_qualifiedType (hrecur : RecurMirrors source source' recur recur')
    (h : raw.Alike raw') :
    MirrorsNode source source' ρ (qualifiedType g recur raw) (qualifiedType g recur' raw') := by
  have hitems := (h.listItems g).1
  unfold qualifiedType
  generalize (raw.listItems g).1 = items at *
  generalize (raw'.listItems g).1 = items' at *
  cases hitems with
  | nil => exact .throw_left _ _
  | @cons first first' _ _ hfirst hrest =>
      refine (mirrors_child hrecur hfirst).bind fun ρ₁ hρ₁ name name' hname => ?_
      refine (mirrors_spanOf first first').bind fun ρ₂ hρ₂ span span' _ => ?_
      refine (mirrors_allocate (.of_not_isLiteral rfl) _ _).bind fun ρ₃ hρ₃ n n' hn => ?_
      refine (mirrors_set hn rfl (hρ₃ _ _ (hρ₂ _ _ hname))).bind fun ρ₄ hρ₄ _ _ _ => ?_
      exact mirrors_qualify hrecur hrest (hρ₄ _ _ hn) _ _

theorem mirrors_wrapType {ts ts' : List (RawTree δ)} (hts : List.Forall₂ Alike ts ts')
    {type type' : NodeId} (htype : ρ type type') (span span' : Span) :
    MirrorsNode source source' ρ (wrapType g ts type span) (wrapType g ts' type' span') := by
  induction hts generalizing ρ type type' span span' with
  | nil => exact .pure htype
  | @cons t t' _ _ ht _ ih =>
      refine (mirrors_spanOf t t').bind fun ρ₁ hρ₁ _ _ _ => ?_
      cases ht with
      | leaf htoken =>
          refine (mirrors_allocate (.of_not_isLiteral rfl) _ _).bind fun ρ₂ hρ₂ n n' hn => ?_
          refine (mirrors_set hn rfl (hρ₂ _ _ (hρ₁ _ _ htype))).bind fun ρ₃ hρ₃ _ _ _ => ?_
          exact ih (hρ₃ _ _ hn) _ _
      | node form i j hcs =>
          refine (mirrors_arrayOf (hρ₁ _ _ htype) (.node form i j hcs) g _ _).bind ?_
          exact fun ρ₂ hρ₂ n n' hn => ih hn _ _

theorem mirrors_wrapRanks {ts ts' : List (RawTree δ)} (hts : List.Forall₂ Alike ts ts')
    {type type' : NodeId} (htype : ρ type type') :
    MirrorsNode source source' ρ (wrapRanks g ts type) (wrapRanks g ts' type') := by
  induction hts generalizing ρ type type' with
  | nil => exact .pure htype
  | @cons t t' _ _ ht _ ih =>
      refine (mirrors_spanOf t t').bind fun ρ₁ hρ₁ _ _ _ => ?_
      exact (mirrors_arrayOf (hρ₁ _ _ htype) ht g _ _).bind fun ρ₂ hρ₂ n n' hn => ih hn

/-- An array whose initializer gives the size. -/
theorem mirrors_listedArray (hrecur : RecurMirrors source source' recur recur')
    (h : raw.Alike raw') :
    MirrorsNode source source' ρ (listedArray g recur raw) (listedArray g recur' raw') := by
  refine (mirrors_spanOf raw raw').bind fun ρ₁ hρ₁ _ _ _ => ?_
  refine (mirrors_allocate (.of_not_isLiteral rfl) _ _).bind fun ρ₂ hρ₂ n n' hn => ?_
  refine ((cursor_alike h g).token .kwNew).bind fun ρ₃ hρ₃ r r' hr => ?_
  refine (mirrors_setToken (hρ₃ _ _ hn) rfl hr.1).bind fun ρ₄ hρ₄ _ _ _ => ?_
  refine hr.2.node.bind fun ρ₅ hρ₅ q q' hq => ?_
  refine (hrecur ρ₅ _ _ hq.1).bind fun ρ₆ hρ₆ type type' htype => ?_
  have hn₆ := hρ₆ _ _ (hρ₅ _ _ (hρ₄ _ _ (hρ₃ _ _ hn)))
  have helement (f f' : Forest) (hf : Forest.Mirror ρ₆ f f') :
      Option.Rel ρ₆ (if f.kind type == .arrayType 1 then f.child? type .type else none)
        (if f'.kind type' == .arrayType 1 then f'.child? type' .type else none) := by
    rw [hf.kind _ _ htype]
    split
    · exact hf.child? htype rfl
    · exact .none
  refine (mirrors_inspect (R := fun ρ => Option.Rel ρ) helement).bind ?_
  rintro ρ₇ hρ₇ _ _ (⟨helement⟩ | _)
  · refine (mirrors_detach helement).bind fun ρ₈ hρ₈ _ _ _ => ?_
    have hn₈ := hρ₈ _ _ (hρ₇ _ _ hn₆)
    refine (mirrors_set hn₈ rfl (hρ₈ _ _ helement)).bind fun ρ₉ hρ₉ _ _ _ => ?_
    refine hq.2.node.bind fun σ₁ hσ₁ q q' hq => ?_
    refine (hrecur σ₁ _ _ hq.1).bind fun σ₂ hσ₂ init init' hinit => ?_
    have hnσ := hσ₂ _ _ (hσ₁ _ _ (hρ₉ _ _ hn₈))
    exact (mirrors_set hnσ rfl hinit).bind fun σ₃ hσ₃ _ _ _ => .pure (hσ₃ _ _ hnσ)
  · exact .throw_left _ _

/-! ## Texts -/

theorem mirrors_wholeText (hrecur : RecurMirrors source source' recur recur')
    (h : raw.Alike raw') :
    MirrorsNode source source' ρ (wholeText recur raw) (wholeText recur' raw') := by
  have hinner : Option.Rel Alike (raw.children.find? (·.token?.isNone))
      (raw'.children.find? (·.token?.isNone)) := by
    have hcs := h.children
    generalize raw.children = cs at hcs
    generalize raw'.children = cs' at hcs
    induction hcs with
    | nil => exact .none
    | cons ht _ ih =>
        rw [List.find?_cons, List.find?_cons, ht.token?_isNone]
        split
        · exact .some ht
        · exact ih
  unfold wholeText
  generalize raw.children.find? (·.token?.isNone) = inner at hinner ⊢
  generalize raw'.children.find? (·.token?.isNone) = inner' at hinner ⊢
  cases hinner with
  | none => exact .throw_left _ _
  | some hinner =>
      refine (hrecur ρ _ _ hinner).bind fun ρ₁ hρ₁ n n' hn => ?_
      have hkind (f f' : Forest) (hf : Forest.Mirror ρ₁ f f') :
          (f.kind n == .compilationUnit) = (f'.kind n' == .compilationUnit) := by
        rw [hf.kind _ _ hn]
      refine (mirrors_inspect (R := fun _ => Eq) hkind).bind ?_
      rintro ρ₂ hρ₂ isUnit _ rfl
      dsimp only
      split
      · match raw.childTokens.getLast?, raw'.childTokens.getLast?,
          rel_getLast? h.childTokens with
        | _, _, .some _ =>
            refine (mirrors_attachTrailing (hρ₂ _ _ hn) _ _).bind fun ρ₃ hρ₃ _ _ _ => ?_
            exact .pure (hρ₃ _ _ (hρ₂ _ _ hn))
        | _, _, .none => exact .pure (hρ₂ _ _ hn)
      · exact .pure (hρ₂ _ _ hn)

variable [BEq δ]

/-! ## Single nodes -/

theorem mirrors_build (hrecur : RecurMirrors source source' recur recur') (h : raw.Alike raw')
    (hc : c.Alike c') {kind : NodeKind} (hkind : kind.isLiteral = false) {parts : List (Part δ)}
    (hparts : Part.arePlain parts = true) :
    MirrorsNode source source' ρ (build g recur raw c kind parts)
      (build g recur' raw' c' kind parts) := by
  refine (mirrors_spanOf raw raw').bind fun ρ₁ _ _ _ _ => ?_
  refine (mirrors_allocate (.of_not_isLiteral hkind) _ _).bind fun ρ₂ _ n n' hn => ?_
  refine (mirrors_readParts hrecur h parts hparts hn hc).bind fun ρ₃ hρ₃ _ _ _ => ?_
  exact .pure (hρ₃ _ _ hn)

theorem mirrors_join (hrecur : RecurMirrors source source' recur recur') (h : raw.Alike raw')
    {kind : NodeKind} (hkind : kind.isLiteral = false) {operands : List (List TokenKind × Title)}
    (hoperands : operands.all (!·.2.isTrivia) = true) {parts : List (Part δ)}
    (hparts : Part.arePlain parts = true) :
    MirrorsNode source source' ρ (join g recur raw kind operands parts)
      (join g recur' raw' kind operands parts) := by
  refine (mirrors_readOperands hrecur (cursor_alike h g) hoperands).bind
    fun ρ₁ _ made made' hmade => ?_
  refine (mirrors_spanOf raw raw').bind fun ρ₂ hρ₂ _ _ _ => ?_
  refine (mirrors_allocate (.of_not_isLiteral hkind) _ _).bind fun ρ₃ hρ₃ n n' hn => ?_
  refine (mirrors_forIn hmade.1 fun ρ' hρ' p p' hp => ?_).bind fun ρ₄ hρ₄ _ _ _ => ?_
  · obtain ⟨t, operand⟩ := p
    obtain ⟨t', operand'⟩ := p'
    obtain ⟨rfl, ht, hoperand⟩ := hp
    exact mirrors_set (hρ' _ _ hn) ht (hρ' _ _ (hρ₃ _ _ (hρ₂ _ _ hoperand)))
  · refine (mirrors_readParts hrecur h parts hparts (hρ₄ _ _ hn) hmade.2).bind
      fun ρ₅ hρ₅ _ _ _ => ?_
    exact .pure (hρ₅ _ _ (hρ₄ _ _ hn))

/-! ## Suffixes -/

theorem mirrors_applySuffix (hrecur : RecurMirrors source source' recur recur')
    {target target' : NodeId} (htarget : ρ target target') (h : raw.Alike raw')
    (span span' : Span) :
    MirrorsNode source source' ρ (applySuffix g recur target raw span)
      (applySuffix g recur' target' raw' span') := by
  refine (cursor_alike h g).anyToken.bind fun ρ₁ hρ₁ r r' hr => ?_
  obtain ⟨tk, c⟩ := r
  obtain ⟨tk', c'⟩ := r'
  obtain ⟨htk, hc⟩ := hr
  -- a node over the target that keeps the token and then reads parts
  have hmake {kind : NodeKind} (hkind : kind.isLiteral = false) {title kept : Title}
      (htitle : title.isTrivia = false) (hkept : kept.isTrivia = false) {parts : List (Part δ)}
      (hparts : Part.arePlain parts = true) :
      MirrorsNode source source' ρ₁
        (do
          let n ← Lower.allocate kind span
          Lower.set n title target
          Lower.setToken n kept tk
          let _ ← readParts g recur n raw c parts
          return n)
        (do
          let n ← Lower.allocate kind span'
          Lower.set n title target'
          Lower.setToken n kept tk'
          let _ ← readParts g recur' n raw' c' parts
          return n) := by
    refine (mirrors_allocate (.of_not_isLiteral hkind) _ _).bind fun ρ₂ hρ₂ n n' hn => ?_
    refine (mirrors_set hn htitle (hρ₂ _ _ (hρ₁ _ _ htarget))).bind fun ρ₃ hρ₃ _ _ _ => ?_
    refine (mirrors_setToken (hρ₃ _ _ hn) hkept htk).bind fun ρ₄ hρ₄ _ _ _ => ?_
    refine (mirrors_readParts hrecur h parts hparts (hρ₄ _ _ (hρ₃ _ _ hn)) hc).bind
      fun ρ₅ hρ₅ _ _ _ => ?_
    exact .pure (hρ₅ _ _ (hρ₄ _ _ (hρ₃ _ _ hn)))
  dsimp only
  rw [htk.kind]
  simp only [bind_assoc, pure_bind]
  split
  · exact hmake rfl rfl rfl rfl
  · exact hmake rfl rfl rfl rfl
  · exact hmake rfl rfl rfl rfl
  · exact hmake rfl rfl rfl rfl
  · simpa only [readParts, pure_bind] using @hmake _ rfl _ _ rfl rfl [] rfl
  · simpa only [readParts, pure_bind] using @hmake _ rfl _ _ rfl rfl [] rfl
  · exact .throw_left _ _

theorem mirrors_applySuffixes (hrecur : RecurMirrors source source' recur recur')
    {ts ts' : List (RawTree δ)} (hts : List.Forall₂ Alike ts ts') {n n' : NodeId} (hn : ρ n n')
    (span span' : Span) :
    MirrorsNode source source' ρ (applySuffixes g recur ts n span)
      (applySuffixes g recur' ts' n' span') := by
  induction hts generalizing ρ n n' span span' with
  | nil => exact .pure hn
  | @cons t t' _ _ ht _ ih =>
      refine (mirrors_spanOf t t').bind fun ρ₁ hρ₁ _ _ _ => ?_
      refine (mirrors_applySuffix hrecur (hρ₁ _ _ hn) ht _ _).bind fun ρ₂ hρ₂ m m' hm => ?_
      exact ih hm _ _

/-! ## Arrays -/

/-- The arguments, the type and the initializer of a new array that has been made. -/
theorem mirrors_finishSized (hrecur : RecurMirrors source source' recur recur') (rank : δ)
    (hc : c.Alike c') {n n' type type' : NodeId} (hn : ρ n n') (htype : ρ type type')
    {arguments arguments' : List NodeId} (harguments : List.Forall₂ ρ arguments arguments') :
    MirrorsNode source source' ρ
      (do
        pushAll n .arguments arguments
        let (ranks, c) := c.takeNodes (some rank)
        Lower.set n .type (← wrapRanks g ranks type)
        if let (some init, _) := c.eatNode then Lower.set n .initializer (← recur init)
        return n)
      (do
        pushAll n' .arguments arguments'
        let (ranks, c) := c'.takeNodes (some rank)
        Lower.set n' .type (← wrapRanks g ranks type')
        if let (some init, _) := c.eatNode then Lower.set n' .initializer (← recur' init)
        return n') := by
  obtain ⟨hranks, hrest⟩ := hc.takeNodes (some rank)
  generalize c.takeNodes (some rank) = taken at *
  generalize c'.takeNodes (some rank) = taken' at *
  refine (mirrors_pushAll hn rfl harguments).bind fun ρ₁ hρ₁ _ _ _ => ?_
  refine (mirrors_wrapRanks hranks (hρ₁ _ _ htype)).bind fun ρ₂ hρ₂ type type' htype => ?_
  have hn₂ := hρ₂ _ _ (hρ₁ _ _ hn)
  refine (mirrors_set hn₂ rfl htype).bind fun ρ₃ hρ₃ _ _ _ => ?_
  dsimp only
  have htook := hrest.eatNode
  generalize taken.2.eatNode = took at htook
  generalize taken'.2.eatNode = took' at htook
  cases htook with
  | some hinit _ =>
      refine (hrecur ρ₃ _ _ hinit).bind fun ρ₄ hρ₄ init init' hinit => ?_
      have hn₄ := hρ₄ _ _ (hρ₃ _ _ hn₂)
      exact (mirrors_set hn₄ rfl hinit).bind fun ρ₅ hρ₅ _ _ _ => .pure (hρ₅ _ _ hn₄)
  | none _ => exact .pure (hρ₃ _ _ hn₂)

theorem mirrors_sizedArray (hrecur : RecurMirrors source source' recur recur') (rank : δ)
    (bounds : Option ArrayBounds) (h : raw.Alike raw') :
    MirrorsNode source source' ρ (sizedArray g recur rank bounds raw)
      (sizedArray g recur' rank bounds raw') := by
  refine ((cursor_alike h g).token .kwNew).bind fun ρ₁ hρ₁ r r' hr => ?_
  obtain ⟨kw, c⟩ := r
  obtain ⟨kw', c'⟩ := r'
  obtain ⟨hkw, hc⟩ := hr
  have hmake (ρ : Pairing) (bounds : ArrayBounds) :
      MirrorsNode source source' ρ
        (do
          let n ← Lower.allocate (.arrayCreateExpression bounds) (← spanOf raw)
          Lower.setToken n .keyword kw
          return n)
        (do
          let n ← Lower.allocate (.arrayCreateExpression bounds) (← spanOf raw')
          Lower.setToken n .keyword kw'
          return n) := by
    refine (mirrors_spanOf raw raw').bind fun ρ₁ _ _ _ _ => ?_
    refine (mirrors_allocate (.of_not_isLiteral rfl) _ _).bind fun ρ₂ _ n n' hn => ?_
    exact (mirrors_setToken hn rfl hkw).bind fun ρ₃ hρ₃ _ _ _ => .pure (hρ₃ _ _ hn)
  have hearly : Mirrors source source' (fun ρ => Option.Rel ρ) ρ₁
      (bounds.mapM fun bounds => do
        let n ← Lower.allocate (.arrayCreateExpression bounds) (← spanOf raw)
        Lower.setToken n .keyword kw
        return n)
      (bounds.mapM fun bounds => do
        let n ← Lower.allocate (.arrayCreateExpression bounds) (← spanOf raw')
        Lower.setToken n .keyword kw'
        return n) := by
    cases bounds with
    | none => exact .pure .none
    | some bounds => exact (hmake ρ₁ bounds).bind fun _ _ _ _ hn => .pure (.some hn)
  refine hearly.bind fun ρ₂ hρ₂ early early' hearly => ?_
  refine hc.node.bind fun ρ₃ hρ₃ q q' hq => ?_
  refine (hrecur ρ₃ _ _ hq.1).bind fun ρ₄ hρ₄ type type' htype => ?_
  refine hq.2.anyToken.bind fun ρ₅ hρ₅ r r' hr => ?_
  refine hr.2.node.bind fun ρ₆ hρ₆ q q' hq => ?_
  refine (mirrors_elements hrecur hq.1 g).bind fun ρ₇ hρ₇ arguments arguments' harguments => ?_
  refine hq.2.anyToken.bind fun ρ₈ hρ₈ r r' hr => ?_
  have htype₈ := hρ₈ _ _ (hρ₇ _ _ (hρ₆ _ _ (hρ₅ _ _ htype)))
  have harguments₈ := harguments.imp hρ₈
  have hρ₂₈ : ρ₂ ≤ ρ₈ := fun _ _ h =>
    hρ₈ _ _ (hρ₇ _ _ (hρ₆ _ _ (hρ₅ _ _ (hρ₄ _ _ (hρ₃ _ _ h)))))
  cases hearly with
  | some hn => exact mirrors_finishSized hrecur rank hr.2 (hρ₂₈ _ _ hn) htype₈ harguments₈
  | none =>
      have hempty : arguments.isEmpty = arguments'.isEmpty := by cases harguments <;> rfl
      dsimp only
      rw [hempty]
      refine (hmake ρ₈ _).bind fun σ hσ n n' hn => ?_
      exact mirrors_finishSized hrecur rank hr.2 hn (hσ _ _ htype₈) (harguments₈.imp hσ)

/-! ## Trees -/

/-- Matches of one shape that are alike become nodes of a pair. -/
theorem mirrors_shaped (hrecur : RecurMirrors source source' recur recur') (h : raw.Alike raw')
    {s : Shape δ} (hs : s.isPlain = true) :
    MirrorsNode source source' ρ (shaped g recur raw s) (shaped g recur' raw' s) := by
  have hc := cursor_alike h g
  cases s with
  | forward =>
      have hcs := h.children
      simp only [shaped]
      generalize raw.children = cs at hcs
      generalize raw'.children = cs' at hcs
      cases hcs with
      | nil => exact .throw_left _ _
      | cons ht hts =>
          cases hts with
          | nil => exact mirrors_child hrecur ht
          | cons => exact .throw_left _ _
  | identifier => exact hc.anyToken.bind fun _ _ _ _ hr => mirrors_identifier hr.1
  | literal =>
      have htokens := rel_head? h.childTokens
      simp only [shaped]
      generalize raw.childTokens.head? = tk at htokens
      generalize raw'.childTokens.head? = tk' at htokens
      cases htokens with
      | some htk => exact mirrors_literal htk
      | none => exact .throw_left _ _
  | knownType =>
      have htokens := rel_head? h.childTokens
      simp only [shaped]
      generalize raw.childTokens.head? = tk at htokens
      generalize raw'.childTokens.head? = tk' at htokens
      cases htokens with
      | some htk =>
          dsimp only
          rw [htk.kind]
          split
          · exact mirrors_allocate (.of_not_isLiteral rfl) _ _
          · exact .throw_left _ _
      | none => exact .throw_left _ _
  | build kind parts =>
      rw [Shape.isPlain, Bool.and_eq_true, Bool.not_eq_true'] at hs
      exact mirrors_build hrecur h hc hs.1 hs.2
  | join kind operands parts =>
      rw [Shape.isPlain, Bool.and_eq_true, Bool.and_eq_true, Bool.not_eq_true'] at hs
      exact mirrors_join hrecur h hs.1.1 hs.1.2 hs.2
  | extend parts =>
      refine hc.node.bind fun ρ₁ _ r r' hr => ?_
      refine (hrecur ρ₁ _ _ hr.1).bind fun ρ₂ _ n n' hn => ?_
      exact (mirrors_readParts hrecur h parts hs hn hr.2).bind fun ρ₃ hρ₃ _ _ _ =>
        .pure (hρ₃ _ _ hn)
  | chain operator? rightward => exact mirrors_chain hrecur operator? rightward h
  | qualifiedType => exact mirrors_qualifiedType hrecur h
  | rankedType =>
      refine hc.node.bind fun ρ₁ _ r r' hr => ?_
      refine (hrecur ρ₁ _ _ hr.1).bind fun ρ₂ _ n n' hn => ?_
      refine (mirrors_spanOf _ _).bind fun ρ₃ hρ₃ _ _ _ => ?_
      exact mirrors_wrapType hr.2 (hρ₃ _ _ hn) _ _
  | suffixed =>
      refine hc.node.bind fun ρ₁ _ r r' hr => ?_
      refine (hrecur ρ₁ _ _ hr.1).bind fun ρ₂ _ n n' hn => ?_
      refine (mirrors_spanOf _ _).bind fun ρ₃ hρ₃ _ _ _ => ?_
      exact mirrors_applySuffixes hrecur hr.2 (hρ₃ _ _ hn) _ _
  | comparisons operator? =>
      refine hc.node.bind fun ρ₁ _ r r' hr => ?_
      refine (hrecur ρ₁ _ _ hr.1).bind fun ρ₂ _ n n' hn => ?_
      refine (mirrors_spanOf _ _).bind fun ρ₃ hρ₃ _ _ _ => ?_
      exact mirrors_applyComparisons hrecur operator? hr.2 (hρ₃ _ _ hn) _ _
  | sizedArray rank bounds => exact mirrors_sizedArray hrecur rank bounds h
  | listedArray => exact mirrors_listedArray hrecur h
  | refused => exact .throw_left _ _
  | ifBlock | doLoop | caseBlock | assignment | rankedParameter => cases hs

/-- Raw trees that are alike become nodes of a pair. -/
theorem mirrors_lowerUpTo (hg : ∀ d tokens, (g.shape d tokens).isPlain = true) (fuel : Nat) :
    RecurMirrors source source' (lowerUpTo g fuel) (lowerUpTo g fuel) := by
  induction fuel with
  | zero => exact fun _ _ _ _ => .throw_left _ _
  | succ fuel ih =>
      intro ρ raw raw' h
      cases h with
      | leaf htoken => exact mirrors_token htoken
      | node form i j hcs =>
          have halike := Alike.node form i j hcs
          cases form with
          | none => exact mirrors_wholeText ih halike
          | some d =>
              simp only [lowerUpTo]
              rw [halike.childKinds]
              refine (mirrors_shaped ih halike (hg d _)).bind fun ρ₁ _ n n' hn => ?_
              split
              · refine (mirrors_attachLeading hn _ _).bind fun ρ₂ hρ₂ _ _ _ => ?_
                exact .pure (hρ₂ _ _ hn)
              · exact .pure hn

end Lowering

end DualSyntax
