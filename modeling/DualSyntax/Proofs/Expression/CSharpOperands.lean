import DualSyntax.Proofs.Expression.CSharpLevels

/-!
# Operands of C# expressions

What stands at the tightest levels: names, literals, expressions in parentheses, suffixes and
operators in front of an operand.
-/

namespace DualSyntax.CSharp

open Packrat Lowering Lexing

variable {source : Source} {p q r : Nat} {t t' : Tree} {tk : Token} {word : String}

/-! ## Names -/

theorem cursor_eq (d : Form) (i j : Nat) (cs : List (RawTree Form)) :
    cursor grammar (.node (some d) i j cs) = ⟨grammar.name d, cs⟩ := by
  have hfilter : cs.filter (fun c => !(c.token?.any fun t => grammar.terminators.contains t.kind)) =
      cs := by
    rw [List.filter_eq_self]
    intro c _
    cases c.token? <;> rfl
  simp only [cursor, RawTree.formName, RawTree.children, hfilter]

theorem nameSign_kind (word : String) : (Language.csharp.nameSign word).kind ∈ nameTokens := by
  unfold Language.nameSign
  cases hreserved : Language.csharp.isReserved word with
  | true => exact List.mem_cons_self
  | false =>
      have htable : ∀ e ∈ Language.csharp.contextual, e.2 ∈ nameTokens := by decide
      have hkind : (wordLexeme .csharp word.toList).kind =
          (Language.csharp.findWord Language.csharp.contextual word).getD .identifier := by
        rw [wordLexeme_kind] <;> rw [String.ofList_toList]
        exact hreserved
      simp only [Bool.false_eq_true, if_false, hkind, Language.findWord]
      cases hfind : Language.csharp.contextual.find? fun e =>
          Language.csharp.normalize e.1 == Language.csharp.normalize word with
      | none => exact List.mem_cons_self
      | some e => exact htable e (List.mem_of_find?_eq_some hfind)

theorem unescape_nameSign (h : IsWord word.toList) (htk : (Language.csharp.nameSign word).Prints tk) :
    Language.csharp.unescape tk.text = word := by
  have htext := htk.text
  unfold Language.nameSign at htext
  cases hreserved : Language.csharp.isReserved word with
  | true =>
      simp only [hreserved, if_true, String.ofList_toList] at htext
      rw [htext, Language.unescape_escaped]
  | false =>
      simp only [hreserved, Bool.false_eq_true, if_false] at htext
      rw [htext, Language.unescape_word _ h, String.ofList_toList]

structure NameAt (source : Source) (word : String) (p : Nat) (tk : Token) : Prop where
  get : source.stream.get? p = some tk
  kind : tk.kind ∈ nameTokens
  spells : source.language.unescape tk.text = word

theorem nameAt (hlanguage : source.language = .csharp) (h : IsWord word.toList)
    (hget : source.stream.get? p = some tk) (htk : (Language.csharp.nameSign word).Prints tk) :
    NameAt source word p tk where
  get := hget
  kind := htk.kind ▸ nameSign_kind word
  spells := by rw [hlanguage, unescape_nameSign h htk]

theorem NameAt.yields (h : NameAt source word p tk) :
    Yields grammar source .identifier p (p + 1) (.node (.identifier word) []) := by
  refine ⟨_, (evaluates_oneOf h.get h.kind).node (d := Form.identifier) rfl, ?_⟩
  rw [← h.spells]
  exact .identifier rfl rfl List.not_mem_nil p (p + 1)

/-- A name alone below a node of a kind. -/
theorem yields_named {d : Form} {kind : NodeKind}
    (h : Yields grammar source .identifier p q (.node (.identifier word) []))
    (hrule : grammar.rule d = some (form .identifier)) (htrivia : grammar.keepsTrivia d = false)
    (hshape : ∀ ks, grammar.shape d ks = .build kind [.node .identifier])
    (hagrees : kind.agrees kind = true) (hbare : kind ≠ .parenthesizedExpression) :
    Yields grammar source d p q (Expression.named kind word) := by
  obtain ⟨raw, hraw, hlowers⟩ := h
  refine ⟨_, (Evaluates.ref hraw).node hrule, .of_shaped htrivia fun recur hrecur => ?_⟩
  rw [hshape, shaped, cursor_eq]
  have hgives := hrecur raw _ (height_le_of_mem List.mem_cons_self) hlowers
  exact (Completes.node hlowers.isNode hgives rfl List.not_mem_nil .nil).gives hagrees hbare

/-! ## First operands -/

def avoided (ds : List Form) (ks : List TokenKind) : Bool :=
  ds.all fun d =>
    !mayMatchNothing d && grammar.begins mayMatchNothing (!ks.contains ·) 60 (.ref d)

theorem fails_of_avoided (ds : List Form) {ks : List TokenKind} (h : avoided ds ks = true)
    (hget : source.stream.get? p = some tk) (hkind : tk.kind ∈ ks) :
    ∀ d ∈ ds, Evaluates grammar source.stream (.definition d) p none := by
  intro d hd
  have hboth := List.all_eq_true.mp h d hd
  rw [Bool.and_eq_true, Bool.not_eq_true'] at hboth
  exact fails_at _ hget (by simpa using hkind) hboth.1 hboth.2

/-- An operand that is matched by one of the definitions for simple ones, where the definitions in
front of it fail. -/
theorem primary_of_yields {d : Form} (h : Yields grammar source d p q t) (before others : List Form)
    (hrule : rule .primaryExpression = anyForm (before ++ d :: others))
    (hfails : ∀ d ∈ .castExpression :: .prefixUnaryExpression :: before,
      Evaluates grammar source.stream (.definition d) p none) : Primary source p q t := by
  have hprimary : Yields grammar source .primaryExpression p q t := by
    refine h.through (d := Form.primaryExpression) (congrArg some hrule) (fun raw hraw => ?_) rfl
    rw [anyForm, List.map_append, List.map_cons]
    refine .chosen ?_ (.ref hraw) _
    intro r hr
    obtain ⟨d', hd', rfl⟩ := List.mem_map.mp hr
    exact .ref (hfails d' (List.mem_cons_of_mem _ (List.mem_cons_of_mem _ hd')))
  exact ⟨hprimary.suffixes _ _, hfails _ (List.mem_cons_of_mem _ List.mem_cons_self),
    hfails _ List.mem_cons_self⟩

theorem NameAt.primary (h : NameAt source word p tk) :
    Primary source p (p + 1) (Expression.name word).tree := by
  have hname : Yields grammar source .identifierExpression p (p + 1) (Expression.name word).tree :=
    yields_named h.yields rfl rfl (fun _ => rfl) rfl (by simp)
  refine primary_of_yields hname [.literal, .parenthesizedExpression, .this, .base,
    .typeOfExpression, .arrayCreationSized, .arrayCreationInitialized, .objectCreation,
    .typeReferenceExpression] [] rfl ?_
  exact fails_of_avoided _ (by decide) h.get h.kind

theorem literalKind_mem (value : LiteralValue) : literalKind value ∈ literalTokens := by
  cases value with
  | boolean b => cases b <;> decide
  | _ => exact of_decide_eq_true rfl

theorem primary_literal {value : LiteralValue} (h : hasLiteral value = true)
    (hget : source.stream.get? p = some tk) (htk : (literalSign value).Prints tk) :
    Primary source p (p + 1) (Expression.literal value).tree := by
  have hkind : tk.kind ∈ literalTokens := htk.kind ▸ literalKind_mem value
  have hvalue : Lower.literalValue? tk = some value := by
    rw [Lower.literalValue?, htk.kind, htk.value]
    cases value with
    | boolean b => cases b <;> rfl
    | real => cases h
    | _ => rfl
  have hrefl : (value == value) = true := by
    cases value with
    | real => cases h
    | null => rfl
    | _ => simp [BEq.beq, instBEqLiteralValue.beq]
  have hliteral : Yields grammar source .literal p (p + 1) (Expression.literal value).tree :=
    ⟨_, (evaluates_oneOf hget hkind).node (d := Form.literal) rfl,
      .literal rfl rfl hvalue hrefl p (p + 1)⟩
  exact primary_of_yields hliteral [] _ rfl (fails_of_avoided _ (by decide) hget hkind)

/-- A definition that is a single token without a trace. -/
theorem yields_word {d : Form} {k : TokenKind} {kind : NodeKind}
    (hget : source.stream.get? p = some tk) (hkind : tk.kind = k)
    (hrule : grammar.rule d = some (tok k)) (htrivia : grammar.keepsTrivia d = false)
    (hshape : ∀ ks, grammar.shape d ks = .build kind []) (hagrees : kind.agrees kind = true)
    (hbare : kind ≠ .parenthesizedExpression) :
    Yields grammar source d p (p + 1) (.node kind []) := by
  refine ⟨_, (Evaluates.accepted hget hkind).node hrule, .of_shaped htrivia fun recur hrecur => ?_⟩
  rw [hshape, shaped]
  exact Completes.nil.gives hagrees hbare

theorem primary_this (hget : source.stream.get? p = some tk) (hkind : tk.kind = .kwThis) :
    Primary source p (p + 1) Expression.this.tree := by
  have hmem : tk.kind ∈ [TokenKind.kwThis] := by simp [hkind]
  have hword : Yields grammar source .this p (p + 1) Expression.this.tree :=
    yields_word hget hkind rfl rfl (fun _ => rfl) rfl (by simp)
  exact primary_of_yields hword [.literal, .parenthesizedExpression] _ rfl
    (fails_of_avoided _ (by decide) hget hmem)

theorem primary_base (hget : source.stream.get? p = some tk) (hkind : tk.kind = .kwBase) :
    Primary source p (p + 1) Expression.base.tree := by
  have hmem : tk.kind ∈ [TokenKind.kwBase] := by simp [hkind]
  have hword : Yields grammar source .base p (p + 1) Expression.base.tree :=
    yields_word hget hkind rfl rfl (fun _ => rfl) rfl (by simp)
  exact primary_of_yields hword [.literal, .parenthesizedExpression, .this] _ rfl
    (fails_of_avoided _ (by decide) hget hmem)

/-- An expression in parentheses, unless they could be those of a cast. -/
theorem primary_parenthesized {tk' : Token} (h : Yields grammar source .expression (p + 1) q t)
    (hget : source.stream.get? p = some tk) (hkind : tk.kind = .lParen)
    (hget' : source.stream.get? q = some tk') (hkind' : tk'.kind = .rParen)
    (hcast : Evaluates grammar source.stream (.definition .castExpression) p none) :
    Primary source p (q + 1) t := by
  obtain ⟨raw, hraw, hlowers⟩ := h
  have hmatch : Evaluates grammar source.stream (.rule (rule .parenthesizedExpression)) p
      (some ([.leaf tk, raw, .leaf tk'], q + 1)) :=
    .sequence (.allStep (.accepted hget hkind) (.allStep (.ref hraw)
      (.allStep (.accepted hget' hkind') .allNil)))
  have hparens : Yields grammar source .parenthesizedExpression p (q + 1) t := by
    refine ⟨_, hmatch.node (d := Form.parenthesizedExpression) rfl,
      .of_shaped rfl fun recur hrecur => ?_⟩
    have hshape : ∀ ks, grammar.shape .parenthesizedExpression ks =
        .build .parenthesizedExpression [.keep .lParen .leftParenthesis, .node .expression,
          .keep .rParen .rightParenthesis] := fun _ => rfl
    have hgives := hrecur raw _ (height_le_of_mem (by simp)) hlowers
    rw [hshape, shaped, cursor_eq]
    exact Completes.parenthesized (.keep hkind rfl List.not_mem_nil
      (.node hlowers.isNode hgives rfl (by decide) (.keep hkind' rfl (by decide) .nil)))
  have hmem : tk.kind ∈ [TokenKind.lParen] := by simp [hkind]
  refine primary_of_yields hparens [.literal] _ rfl fun d hd => ?_
  rcases List.mem_cons.mp hd with rfl | hd
  · exact hcast
  · exact fails_of_avoided _ (by decide) hget hmem d hd

/-! ## Arguments -/

def ArgumentRow (source : Source) (p q : Nat) (ts : List Tree) : Prop :=
  ∃ (first : RawTree Form) (p₁ : Nat) (pairs : List (RawTree Form × RawTree Form)),
    Evaluates grammar source.stream (.definition .argument) p (some ([first], p₁)) ∧
    Row grammar source.stream (form .argument) (some (tok .comma)) p₁ (pairs.flatMap pairTrees) q ∧
    List.Forall₂ (Lowers grammar source) (first :: pairs.map (·.2)) ts

def Arguments (source : Source) (p q : Nat) (ts : List Tree) : Prop :=
  ∃ cs, Evaluates grammar source.stream (.definition .argumentList) p
      (some ([.node (some .argumentList) p q cs], q)) ∧
    List.Forall₂ (Lowers grammar source) (RawTree.alternate cs).1 ts

theorem yields_argument (h : Yields grammar source .expression p q t)
    (hget : source.stream.get? p = some tk) (hkind : tk.kind ∉ [TokenKind.kwRef, .kwOut]) :
    Yields grammar source .argument p q t := by
  refine h.through (d := Form.argument) rfl (fun raw hraw => ?_) rfl
  exact .choice (.firstMiss (.sequence (.allStop (evaluates_oneOf_none hget hkind)))
    (.firstHit (.ref hraw)))

theorem ArgumentRow.single (h : Yields grammar source .argument p q t) :
    ArgumentRow source p q [t] := by
  obtain ⟨raw, hraw, hlowers⟩ := h
  exact ⟨raw, q, [], hraw, .nil, .cons hlowers .nil⟩

theorem ArgumentRow.cons {ts : List Tree} (h : Yields grammar source .argument p q t)
    (hget : source.stream.get? q = some tk) (hkind : tk.kind = .comma)
    (hrest : ArgumentRow source (q + 1) r ts) : ArgumentRow source p r (t :: ts) := by
  obtain ⟨raw, hraw, hlowers⟩ := h
  obtain ⟨first, p₁, pairs, hfirst, hrow, hall⟩ := hrest
  have hle : q + 1 ≤ p₁ := (hfirst.advances emptyRules _ _ rfl).1
  refine ⟨raw, q, (.leaf tk, first) :: pairs, hraw, ?_, .cons hlowers hall⟩
  exact .cons (.accepted hget hkind) (.ref hfirst) hle hrow

theorem ArgumentRow.close {ts : List Tree} (h : ArgumentRow source p q ts)
    (hget : source.stream.get? q = some tk) (hkind : tk.kind ≠ .comma) :
    Arguments source p q ts := by
  obtain ⟨first, p₁, pairs, hfirst, hrow, hall⟩ := h
  have hlist := hrow.list (.ref hfirst) (.separator (.refused hget hkind)) (Nat.zero_le 1)
  refine ⟨chained first pairs, hlist.node (d := Form.argumentList) rfl, ?_⟩
  rw [alternate_chained]
  exact hall

theorem arguments_nil (hget : source.stream.get? p = some tk)
    (hkind : tk.kind ∈ [TokenKind.rParen, .rBracket]) : Arguments source p p [] := by
  have hnone := fails_of_avoided [.argument] (by decide) hget hkind _
    List.mem_cons_self
  exact ⟨[], (Evaluates.noElement (.ref hnone)).node (d := Form.argumentList) rfl, .nil⟩

/-! ## Suffixes -/

theorem Primary.snoc {cs : List (RawTree Form)} (h : Primary source p q t)
    (hmatch : Evaluates grammar source.stream (.rule (rule .postfixSuffix)) q (some (cs, r)))
    (hlt : q < r)
    (hround : ∀ recur bound, Faithful grammar source recur bound → RawTree.heightOf cs ≤ bound →
      Rounds source (applySuffixes grammar recur) (.node (some .postfixSuffix) q r cs) t t') :
    Primary source p r t' :=
  ⟨h.suffixes.snoc (hmatch.node rfl) hlt hround, h.noSign, h.noCast⟩

theorem Primary.member (h : Primary source p q t) {nullConditional : Bool} {name : Token}
    (hget : source.stream.get? q = some tk)
    (hkind : tk.kind = if nullConditional then .questionDot else .dot)
    (hname : NameAt source word (q + 1) name) :
    Primary source p (q + 2) (.node (.memberReferenceExpression nullConditional)
      [(.target, t), (.identifier, .node (.identifier word) [])]) := by
  obtain ⟨raw, hraw, hlowers⟩ := hname.yields
  have hmatch : Evaluates grammar source.stream (.rule (rule .postfixSuffix)) q
      (some ([.leaf tk, raw], q + 2)) := by
    refine .choice ?_
    cases nullConditional with
    | true =>
        exact .firstMiss (.sequence (.allStop (.refused hget (by simp [hkind]))))
          (.firstHit (.sequence (.allStep (.accepted hget hkind) (.allStep (.ref hraw) .allNil))))
    | false =>
        exact .firstHit (.sequence (.allStep (.accepted hget hkind) (.allStep (.ref hraw) .allNil)))
  refine h.snoc hmatch (by omega) fun recur bound hrecur hheight => ?_
  have hgives := hrecur raw _ (Nat.le_trans (height_le_of_mem (by simp)) hheight) hlowers
  have hplan : Survey.suffixPlan? (δ := Form) tk.kind =
      some (.memberReferenceExpression nullConditional, .target, .dot, [.node .identifier]) := by
    rw [hkind]
    cases nullConditional <;> rfl
  exact rounds_suffix (cursor_eq _ _ _ _) hplan rfl rfl (by cases nullConditional <;> rfl) (by simp)
    (.node hlowers.isNode hgives rfl (by decide) .nil)

theorem Primary.increment (h : Primary source p q t) {op : UnaryOperator}
    (hop : op.isSuffix = true) (hget : source.stream.get? q = some tk)
    (hkind : tk.kind = unaryKind op) :
    Primary source p (q + 1) (.node (.unaryOperatorExpression op) [(.expression, t)]) := by
  have hmiss {k : TokenKind} {rs : List (Rule Form)} (hk : unaryKind op ≠ k) :
      Evaluates grammar source.stream (.rule (seq (tok k :: rs))) q none :=
    .sequence (.allStop (.refused hget (hkind ▸ hk)))
  have hmatch : Evaluates grammar source.stream (.rule (rule .postfixSuffix)) q
      (some ([.leaf tk], q + 1)) := by
    refine .choice ?_
    cases op with
    | postIncrement =>
        exact .firstMiss (hmiss (by decide)) <| .firstMiss (hmiss (by decide)) <|
          .firstMiss (hmiss (by decide)) <| .firstMiss (hmiss (by decide)) <|
            .firstHit (.accepted hget hkind)
    | postDecrement =>
        exact .firstMiss (hmiss (by decide)) <| .firstMiss (hmiss (by decide)) <|
          .firstMiss (hmiss (by decide)) <| .firstMiss (hmiss (by decide)) <|
            .firstMiss (.refused hget (by simp [hkind, unaryKind])) <|
              .firstHit (.accepted hget hkind)
    | _ => cases hop
  refine h.snoc hmatch (Nat.lt_succ_self q) fun recur bound hrecur hheight => ?_
  have hplan : Survey.suffixPlan? (δ := Form) tk.kind =
      some (.unaryOperatorExpression op, .expression, .operatorToken, []) := by
    rw [hkind]
    cases op with
    | postIncrement | postDecrement => rfl
    | _ => cases hop
  exact rounds_suffix (cursor_eq _ _ _ _) hplan rfl rfl (by cases op <;> rfl) (by simp) .nil

def brackets (indexed : Bool) : TokenKind × TokenKind :=
  if indexed then (.lBracket, .rBracket) else (.lParen, .rParen)

theorem Primary.application (h : Primary source p q t) {indexed : Bool} {ts : List Tree}
    {tk' : Token} (hget : source.stream.get? q = some tk) (hkind : tk.kind = (brackets indexed).1)
    (harguments : Arguments source (q + 1) r ts) (hget' : source.stream.get? r = some tk')
    (hkind' : tk'.kind = (brackets indexed).2) :
    Primary source p (r + 1)
      (.node (Expression.applicationKind indexed) ((.target, t) :: ts.map (.arguments, ·))) := by
  obtain ⟨cs, hlist, hall⟩ := harguments
  have hle : q + 1 ≤ r := (hlist.advances emptyRules _ _ rfl).1
  have hmiss {k : TokenKind} {rs : List (Rule Form)} (hk : (brackets indexed).1 ≠ k) :
      Evaluates grammar source.stream (.rule (seq (tok k :: rs))) q none :=
    .sequence (.allStop (.refused hget (hkind ▸ hk)))
  have hmatch : Evaluates grammar source.stream (.rule (rule .postfixSuffix)) q
      (some ([.leaf tk, .node (some .argumentList) (q + 1) r cs, .leaf tk'], r + 1)) := by
    refine .choice (.firstMiss (hmiss ?_) (.firstMiss (hmiss ?_) ?_))
    · cases indexed <;> decide
    · cases indexed <;> decide
    · cases indexed with
      | true =>
          exact .firstMiss (hmiss (by decide)) (.firstHit (.sequence (.allStep (.accepted hget hkind)
            (.allStep (.ref hlist) (.allStep (.accepted hget' hkind') .allNil)))))
      | false =>
          exact .firstHit (.sequence (.allStep (.accepted hget hkind)
            (.allStep (.ref hlist) (.allStep (.accepted hget' hkind') .allNil))))
  refine h.snoc hmatch (by omega) fun recur bound hrecur hheight => ?_
  have hplan : ∃ place last, Survey.suffixPlan? (δ := Form) tk.kind =
      some (Expression.applicationKind indexed, .target, place,
        [.list .arguments, .keep tk'.kind last]) ∧ place.isLexical = true ∧
      last.isLexical = true ∧ last ∉ [.target, place] ∧ last ≠ .arguments := by
    rw [hkind, hkind']
    cases indexed with
    | true => exact ⟨.leftBracket, .rightBracket, rfl, rfl, rfl, by decide, by decide⟩
    | false => exact ⟨.leftParenthesis, .rightParenthesis, rfl, rfl, rfl, by decide, by decide⟩
  obtain ⟨place, last, hplan, hplace, hlast, hnew, hne⟩ := hplan
  have hheight' : RawTree.heightOf cs + 1 ≤ bound :=
    Nat.le_trans (height_le_of_mem (c := .node (some .argumentList) (q + 1) r cs) (by simp)) hheight
  have hgives := hrecur.children hall fun raw hraw =>
    Nat.le_trans (height_le_of_mem (Setting.mem_alternate.mpr (.inl hraw)))
      (Nat.le_of_succ_le hheight')
  refine rounds_suffix (cursor_eq _ _ _ _) hplan rfl hplace ?_ ?_
    (.list rfl hgives rfl (.keep rfl hlast ?_ .nil))
  · cases indexed <;> rfl
  · cases indexed <;> simp [Expression.applicationKind]
  · simpa [hne] using hnew

/-! ## Operators in front of an operand -/

theorem Operand.signed {op : UnaryOperator} (h : Operand source unaryLevel (p + 1) q t)
    (hget : source.stream.get? p = some tk) (hkind : tk.kind ∈ signTokens)
    (hop : signOperator? tk.kind = some op) :
    Operand source unaryLevel p q (.node (.unaryOperatorExpression op) [(.expression, t)]) := by
  obtain ⟨raw, hraw, hlowers⟩ := h.yields
  have hmatch : Evaluates grammar source.stream (.rule (rule .prefixUnaryExpression)) p
      (some ([.leaf tk, raw], q)) :=
    .sequence (.allStep (evaluates_oneOf hget hkind) (.allStep (.ref hraw) .allNil))
  have hsigned : Yields grammar source .prefixUnaryExpression p q
      (.node (.unaryOperatorExpression op) [(.expression, t)]) := by
    refine ⟨_, hmatch.node (d := Form.prefixUnaryExpression) rfl,
      .of_shaped rfl fun recur hrecur => ?_⟩
    have hshape : grammar.shape .prefixUnaryExpression
        ((RawTree.node (some Form.prefixUnaryExpression) p q [.leaf tk, raw]).childTokens.map
          (·.kind)) =
        .build (.unaryOperatorExpression op) [.keepAny .operatorToken, .node .expression] := by
      change signShape _ = _
      simp [signShape, RawTree.childTokens, RawTree.children, RawTree.token?, hop]
    have hgives := hrecur raw _ (height_le_of_mem (by simp)) hlowers
    rw [hshape, shaped, cursor_eq]
    exact Completes.gives (.keepAny rfl List.not_mem_nil
      (.node hlowers.isNode hgives rfl (by decide) .nil)) (by cases op <;> rfl) (by simp)
  have hunary : Yields grammar source .unaryExpression p q
      (.node (.unaryOperatorExpression op) [(.expression, t)]) :=
    hsigned.through (d := Form.unaryExpression) rfl (fun raw hraw => .choice (.firstHit (.ref hraw)))
      rfl
  obtain ⟨raw, hraw, hlowers⟩ := hunary
  exact ⟨⟨raw, hraw, hlowers⟩, raw, q, hraw, .inl rfl⟩

/-! ## Types -/

/-- A name is a type in front of a token that goes on with no operand. -/
theorem NameAt.type (h : NameAt source word p tk) (hquiet : Quiet source relationalLevel (p + 1)) :
    Yields grammar source .type p (p + 1) (Expression.named .simpleType word) := by
  obtain ⟨raw, hraw, hlowers⟩ := h.yields
  obtain ⟨next, hget, hreach⟩ := hquiet
  have hne {k : TokenKind} (hk : relationalLevel < reach k) : next.kind ≠ k := by
    rintro rfl
    exact Nat.not_lt.mpr hreach hk
  have hname : Evaluates grammar source.stream (.definition .typeName) p
      (some ([.node (some .typeName) p (p + 1) [raw]], p + 1)) :=
    (Row.list (.ref hraw) .nil (.separator (.refused hget (hne (by decide)))) (Nat.le_refl 1)).node
      rfl
  have htypeName : Yields grammar source .typeName p (p + 1) (Expression.named .simpleType word) :=
    ⟨_, hname, hlowers.typeName rfl (fun _ => rfl) p (p + 1)⟩
  have hplain : Yields grammar source .nonArrayType p (p + 1) (Expression.named .simpleType word) := by
    refine htypeName.through (d := Form.nonArrayType) rfl (fun raw hraw => ?_) rfl
    have hword := fails_of_avoided [.primitiveType] (by decide) h.get h.kind _
      List.mem_cons_self
    exact .choice (.firstMiss (.ref hword) (.firstHit (.ref hraw)))
  refine hplain.through (d := Form.type) rfl (fun raw hraw => ?_) rfl
  have hrank : Evaluates grammar source.stream (.definition .rankSpecifier) (p + 1) none :=
    .noNode (.sequence (.allStop (.refused hget (hne (by decide))))) rfl
  exact .sequence (.allStep (.ref hraw) (.allStep
    (Row.star .nil (.refused hget (hne (by decide))))
    (.allStep (Row.star .nil (.ref hrank)) .allNil)))

end DualSyntax.CSharp
