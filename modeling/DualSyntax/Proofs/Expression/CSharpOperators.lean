import DualSyntax.Proofs.Expression.CSharpOperands

/-!
# Operators of C# expressions

Operators between operands, type tests, conditions and assignments, each at its level.
-/

namespace DualSyntax.CSharp

open Packrat Lowering

variable {source : Source} {p q r m L : Nat} {t t' : Tree} {tk : Token} {op : BinaryOperator}

/-! ## Operators between operands -/

theorem binaryKind_spells (h : hasBinary op = true) :
    binaryOperator? (binaryKind op) = some op ∧ binaryKind op ∉ assignmentTokens := by
  cases op with
  | concat | integerDivide | power | referenceEquality | referenceInequality => cases h
  | _ => decide

theorem operatorAt (h : hasBinary op = true) (hL : binaryLevel op ≠ relationalLevel)
    (hget : source.stream.get? q = some tk) (hkind : tk.kind = binaryKind op) :
    OperatorAt grammar source (operatorRule (binaryLevel op)) binaryOperator? q op tk := by
  refine ⟨?_, hkind ▸ (binaryKind_spells h).1⟩
  cases op with
  | concat | integerDivide | power | referenceEquality | referenceInequality => cases h
  | lessThan | greaterThan | lessThanOrEqual | greaterThanOrEqual => exact absurd rfl hL
  | nullCoalescing => exact .accepted hget hkind
  | _ => exact evaluates_oneOf hget (by rw [hkind]; decide)

theorem Open.chainLeft (h : Open source L p q t) (hL : L ∈ leftLevels) :
    ChainLeft grammar source (levelForm (L + 1)) (operatorRule L) binaryOperator? p q t ∧
      Heads source p q := by
  cases h with
  | operators _ h hheads => exact ⟨h, hheads⟩
  | assignment | conditional | coalescing | comparisons | unary | primary =>
      exact absurd hL (by decide)

theorem Open.chainRight (h : Open source coalescingLevel p q t) :
    ChainRight grammar source (levelForm (coalescingLevel + 1)) (operatorRule coalescingLevel)
      binaryOperator? p q t := by
  generalize hL : coalescingLevel = L at h
  cases h with
  | coalescing h => exact h
  | operators hmem =>
      subst hL
      exact absurd hmem (by decide)
  | assignment | conditional | comparisons | unary | primary => exact absurd hL (by decide)

theorem Open.suffixes (h : Open source relationalLevel p q t) :
    Suffixes grammar source .shiftExpression .relationalTail
      (fun recur => applyComparisons grammar recur binaryOperator?) p q t ∧ Heads source p q := by
  generalize hL : relationalLevel = L at h
  cases h with
  | comparisons h hheads => exact ⟨h, hheads⟩
  | operators hmem =>
      subst hL
      exact absurd hmem (by decide)
  | assignment | conditional | coalescing | unary | primary => exact absurd hL (by decide)

/-- The end of an expression lies behind its start. -/
theorem Operand.lt (h : Operand source L p q t) : p < q := by
  obtain ⟨raw, hraw, -⟩ := h.yields
  obtain ⟨hle, hempty⟩ := hraw.advances emptyRules _ _ rfl
  have hsome : mayMatchNothing (levelForm L) = false := by
    unfold levelForm
    split <;> rfl
  refine Nat.lt_of_le_of_ne hle fun heq => ?_
  have hnothing : mayMatchNothing (levelForm L) = true := hempty heq.symm
  rw [hsome] at hnothing
  cases hnothing

/-- One more operand, of the next tighter level, behind an operator that is grouped from the
left. -/
theorem Open.operator (h : Open source (binaryLevel op) p q t) (hop : hasBinary op = true)
    (hL : binaryLevel op ∈ leftLevels) (hget : source.stream.get? q = some tk)
    (hkind : tk.kind = binaryKind op) (hright : Operand source (binaryLevel op + 1) (q + 1) r t') :
    Open source (binaryLevel op) p r
      (.node (.binaryOperatorExpression op) [(.left, t), (.right, t')]) := by
  obtain ⟨hchain, hheads⟩ := h.chainLeft hL
  have hne : binaryLevel op ≠ relationalLevel := by
    intro heq
    rw [heq] at hL
    exact absurd hL (by decide)
  have hoperator := operatorAt hop hne hget hkind
  refine .operators hL (hchain.snoc hoperator hright.yields (Nat.lt_of_succ_lt hright.lt)) ?_
  exact hheads.extend hget (hkind ▸ (binaryKind_spells hop).2) r

theorem Open.coalesce (hleft : Operand source (coalescingLevel + 1) p q t')
    (hget : source.stream.get? q = some tk) (hkind : tk.kind = binaryKind .nullCoalescing)
    (h : Open source coalescingLevel (q + 1) r t) :
    Open source coalescingLevel p r
      (.node (.binaryOperatorExpression .nullCoalescing) [(.left, t'), (.right, t)]) := by
  have hop : hasBinary .nullCoalescing = true := rfl
  refine .coalescing (.cons hleft.yields (operatorAt hop (by decide) hget hkind) h.chainRight ?_)
    (hleft.heads.extend hget (hkind ▸ (binaryKind_spells hop).2) r)
  intro raw p₁ hraw
  exact (hraw.advances emptyRules _ _ rfl).1

/-! ## Comparisons and type tests -/

theorem Open.compare (h : Open source relationalLevel p q t) (hop : hasBinary op = true)
    (hL : binaryLevel op = relationalLevel) (hget : source.stream.get? q = some tk)
    (hkind : tk.kind = binaryKind op) (hright : Operand source (relationalLevel + 1) (q + 1) r t') :
    Open source relationalLevel p r
      (.node (.binaryOperatorExpression op) [(.left, t), (.right, t')]) := by
  obtain ⟨hsuffixes, hheads⟩ := h.suffixes
  obtain ⟨raw, hraw, hlowers⟩ := hright.yields
  obtain ⟨hspells, hassigns⟩ := binaryKind_spells hop
  have hcomparison : binaryKind op ∈ [TokenKind.lt, .gt, .ltEq, .gtEq] ∧ binaryKind op ≠ .kwIs ∧
      binaryKind op ≠ .kwAs := by
    cases op with
    | lessThan | greaterThan | lessThanOrEqual | greaterThanOrEqual => decide
    | _ => exact absurd hL (by decide)
  have hmatch : Evaluates grammar source.stream (.definition .relationalTail) q
      (some ([.node (some .relationalTail) q r [.leaf tk, raw]], r)) :=
    Evaluates.node (.choice (.firstHit (.sequence (.allStep
      (evaluates_oneOf hget (hkind ▸ hcomparison.1)) (.allStep (.ref hraw) .allNil))))) rfl
  refine .comparisons (hsuffixes.snoc hmatch (Nat.lt_of_succ_lt hright.lt)
    fun recur bound hrecur hheight => ?_) (hheads.extend hget (hkind ▸ hassigns) r)
  exact rounds_comparison (cursor_eq _ _ _ _) hlowers.isNode (hkind ▸ hspells)
    (hkind ▸ hcomparison.2.1) (hkind ▸ hcomparison.2.2)
    (hrecur raw _ (Nat.le_trans (height_le_of_mem (by simp)) hheight) hlowers)

theorem Open.typeTest (h : Open source relationalLevel p q t) {converts : Bool}
    (hget : source.stream.get? q = some tk) (hkind : tk.kind = if converts then .kwAs else .kwIs)
    (htype : Yields grammar source .type (q + 1) r t') :
    Open source relationalLevel p r
      (.node (Expression.typeTestKind converts) [(.expression, t), (.type, t')]) := by
  obtain ⟨hsuffixes, hheads⟩ := h.suffixes
  obtain ⟨raw, hraw, hlowers⟩ := htype
  have hlt : q < r := (hraw.advances emptyRules _ _ rfl).1
  have hmiss {k : TokenKind} (hk : (if converts then TokenKind.kwAs else .kwIs) ≠ k)
      (rs : List (Rule Form)) : Evaluates grammar source.stream (.rule (seq (tok k :: rs))) q none :=
    .sequence (.allStop (.refused hget (hkind ▸ hk)))
  have hcompares : tk.kind ∉ [TokenKind.lt, .gt, .ltEq, .gtEq] := by
    rw [hkind]
    cases converts <;> decide
  have hmatch : Evaluates grammar source.stream (.definition .relationalTail) q
      (some ([.node (some .relationalTail) q r [.leaf tk, raw]], r)) := by
    refine Evaluates.node (.choice (.firstMiss
      (.sequence (.allStop (evaluates_oneOf_none hget hcompares))) ?_)) rfl
    cases converts with
    | true =>
        exact .firstMiss (hmiss (by decide) _) (.firstHit (.sequence (.allStep (.accepted hget hkind)
          (.allStep (.ref hraw) .allNil))))
    | false =>
        exact .firstHit (.sequence (.allStep (.accepted hget hkind) (.allStep (.ref hraw) .allNil)))
  have hassigns : tk.kind ∉ assignmentTokens := by
    rw [hkind]
    cases converts <;> decide
  refine .comparisons (hsuffixes.snoc hmatch hlt fun recur bound hrecur hheight => ?_)
    (hheads.extend hget hassigns r)
  exact rounds_typeTest converts (cursor_eq _ _ _ _) hlowers.isNode hkind
    (hrecur raw _ (Nat.le_trans (height_le_of_mem (by simp)) hheight) hlowers)

/-! ## Conditions and assignments -/

theorem Operand.conditional {t₁ t₂ : Tree} {p₁ p₂ : Nat} {question colon : Token}
    (h : Operand source coalescingLevel p p₁ t) (hget : source.stream.get? p₁ = some question)
    (hkind : question.kind = .question) (hyes : Yields grammar source .expression (p₁ + 1) p₂ t₁)
    (hget' : source.stream.get? p₂ = some colon) (hkind' : colon.kind = .colon)
    (hno : Yields grammar source .expression (p₂ + 1) q t₂) :
    Operand source conditionalLevel p q
      (.node .conditionalExpression
        [(.condition, t), (.trueExpression, t₁), (.falseExpression, t₂)]) := by
  obtain ⟨raw, hraw, hlowers⟩ := h.yields
  obtain ⟨raw₁, hraw₁, hlowers₁⟩ := hyes
  obtain ⟨raw₂, hraw₂, hlowers₂⟩ := hno
  have hrest : Evaluates grammar source.stream
      (.rule (seq [tok .question, form .expression, tok .colon, form .expression])) p₁
      (some ([.leaf question, raw₁, .leaf colon, raw₂], q)) :=
    .sequence (.allStep (.accepted hget hkind) (.allStep (.ref hraw₁)
      (.allStep (.accepted hget' hkind') (.allStep (.ref hraw₂) .allNil))))
  have hmatch : Evaluates grammar source.stream (.rule (rule .conditionalExpression)) p
      (some ([raw, .leaf question, raw₁, .leaf colon, raw₂], q)) :=
    .sequence (.allStep (.ref hraw) (.allStep (.optional hrest) .allNil))
  refine ⟨⟨_, hmatch.node (d := Form.conditionalExpression) rfl, .of_shaped rfl
    fun recur hrecur => ?_⟩, h.heads.extend hget (hkind ▸ by decide) q⟩
  have hshape : grammar.shape .conditionalExpression
      ((RawTree.node (some Form.conditionalExpression) p q
        [raw, .leaf question, raw₁, .leaf colon, raw₂]).childTokens.map (·.kind)) =
      .build .conditionalExpression
        [.node .condition, .keep .question .questionMark, .node .trueExpression,
          .keep .colon .colon, .node .falseExpression] := by
    change Shape.forwardOr _ _ = _
    simp [Shape.forwardOr, RawTree.childTokens, RawTree.children, RawTree.token?]
  have hgives {c : RawTree Form} {u : Tree}
      (hmem : c ∈ [raw, .leaf question, raw₁, .leaf colon, raw₂]) (hc : Lowers grammar source c u) :
      Gives source (recur c) u := hrecur c u (height_le_of_mem hmem) hc
  rw [hshape, shaped, cursor_eq]
  exact Completes.gives (.node hlowers.isNode (hgives (by simp) hlowers) rfl List.not_mem_nil
    (.keep hkind rfl (by decide) (.node hlowers₁.isNode (hgives (by simp) hlowers₁) rfl (by decide)
      (.keep hkind' rfl (by decide)
        (.node hlowers₂.isNode (hgives (by simp) hlowers₂) rfl (by decide) .nil))))) rfl (by simp)

theorem Operand.assigned {op : AssignmentOperator} (h : Operand source unaryLevel p q t)
    (hget : source.stream.get? q = some tk) (hkind : tk.kind ∈ assignmentTokens)
    (hop : assignmentOperator? tk.kind = some op)
    (hvalue : Yields grammar source .expression (q + 1) r t') :
    Yields grammar source .expression p r
      (.node (.assignmentExpression op) [(.left, t), (.value, t')]) := by
  obtain ⟨raw, hraw, hlowers⟩ := h.yields
  obtain ⟨raw', hraw', hlowers'⟩ := hvalue
  have hmatch : Evaluates grammar source.stream (.rule (rule .assignmentExpression)) p
      (some ([raw, .leaf tk, raw'], r)) :=
    .sequence (.allStep (.ref hraw) (.allStep (evaluates_oneOf hget hkind)
      (.allStep (.ref hraw') .allNil)))
  have hassigned : Yields grammar source .assignmentExpression p r
      (.node (.assignmentExpression op) [(.left, t), (.value, t')]) := by
    refine ⟨_, hmatch.node (d := Form.assignmentExpression) rfl, .of_shaped rfl
      fun recur hrecur => ?_⟩
    have htokens : (RawTree.node (some Form.assignmentExpression) p r
        [raw, .leaf tk, raw']).childTokens = [tk] := by
      have hleaf : (RawTree.leaf tk : RawTree Form).token? = some tk := rfl
      simp [RawTree.childTokens, RawTree.children, hleaf, hlowers.isNode, hlowers'.isNode]
    have hshape : grammar.shape .assignmentExpression [tk.kind] =
        .join (.assignmentExpression op) [([], .left)] [.keepAny .operatorToken, .node .value] := by
      change assignmentShape [tk.kind] = _
      simp [assignmentShape, hop]
    have hgives {c : RawTree Form} {u : Tree} (hmem : c ∈ [raw, .leaf tk, raw'])
        (hc : Lowers grammar source c u) : Gives source (recur c) u :=
      hrecur c u (height_le_of_mem hmem) hc
    rw [htokens, List.map_singleton, hshape, shaped]
    exact gives_join (cursor_eq _ _ _ _) hlowers.isNode (hgives (by simp) hlowers) rfl
      (by cases op <;> rfl) (by simp) (.keepAny rfl (by decide)
        (.node hlowers'.isNode (hgives (by simp) hlowers') rfl (by decide) .nil))
  exact hassigned.through (d := Form.expression) rfl
    (fun raw hraw => .choice (.firstHit (.ref hraw))) rfl

end DualSyntax.CSharp
