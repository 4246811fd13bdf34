import DualSyntax.Proofs.Expression.CSharpOperands

/-!
# Parentheses that are no casts

A type in parentheses could be read as the beginning of a cast.  The printed signs of an expression
that stands in parentheses never read as a type: its operator is no part of a name, and what follows
the operator is no part of a pointer or of the rank of an array.
-/

namespace DualSyntax.CSharp

open Packrat Piece

variable {source : Source} {e : Expression} {p q r : Nat} {tk : Token}

/-! ## Types -/

def typeNameTokens : List TokenKind := .dot :: (nameTokens ++ typeWords)

/-- The tokens that may follow the name of a type. -/
def rankTokens : List TokenKind := [.star, .lBracket, .comma, .rBracket]

theorem evaluates_all_cons {rule : Rule Form} {rules : List (Rule Form)} {s : TokenStream}
    {trees : List (RawTree Form)} (h : Evaluates grammar s (.all (rule :: rules)) p (some (trees, q))) :
    ∃ first m rest, Evaluates grammar s (.rule rule) p (some (first, m)) ∧
      Evaluates grammar s (.all rules) m (some (rest, q)) := by
  generalize hfound : some (trees, q) = found at h
  cases h with
  | allStop => cases hfound
  | allStep hfirst hrest =>
      obtain ⟨rest, rfl, -⟩ := after_eq_some hfound.symm
      exact ⟨_, _, rest, hfirst, hrest⟩

/-- A type is a name with stars and brackets after it. -/
theorem evaluates_type {trees : List (RawTree Form)} {s : TokenStream}
    (h : Evaluates grammar s (.definition .type) p (some (trees, r))) :
    ∃ m, Among s (typeNameTokens.contains ·) p m ∧ Among s (rankTokens.contains ·) m r := by
  generalize hfound : some (trees, r) = found at h
  cases h with
  | undefined => cases hfound
  | defined hrule h =>
      obtain ⟨inner, rfl, -⟩ := recalled_asNode_eq_some hfound.symm
      cases hrule
      cases h with
      | sequence h =>
          obtain ⟨name, m, rest, hname, h⟩ := evaluates_all_cons h
          obtain ⟨stars, m', rest', hstars, h⟩ := evaluates_all_cons h
          obtain ⟨ranks, r', rest'', hranks, h⟩ := evaluates_all_cons h
          cases h
          have hnameTakes : (Goal.rule (form .nonArrayType)).takes grammar
              (typeNameTokens.contains ·) 20 = true := by decide
          have hstarsTakes : (Goal.rule (tok .star).star).takes grammar
              (rankTokens.contains ·) 20 = true := by decide
          have hranksTakes : (Goal.rule (form .rankSpecifier).star).takes grammar
              (rankTokens.contains ·) 20 = true := by decide
          exact ⟨m, hname.takes hnameTakes rfl,
            (hstars.takes hstarsTakes rfl).append (hranks.takes hranksTakes rfl)⟩

/-- Parentheses in which no type reaches to the closing one are not those of a cast. -/
theorem noCast (hget : source.stream.get? p = some tk)
    (hnext : p + 1 < source.stream.size)
    (h : ∀ trees r, Evaluates grammar source.stream (.definition .type) (p + 1) (some (trees, r)) →
      ∀ tk, source.stream.get? r = some tk → tk.kind ≠ .rParen) :
    Evaluates grammar source.stream (.definition .castExpression) p none := by
  have htype (rules : List (Rule Form)) :
      Evaluates grammar source.stream (.all (form .type :: tok .rParen :: rules)) (p + 1) none := by
    obtain ⟨found, htype⟩ := exists_evaluates (Language.not_leftRecursive .csharp source.stream)
      (Goal.definition Form.type) (Nat.le_of_lt hnext)
    cases found with
    | none => exact .allStop (.ref htype)
    | some pair =>
        obtain ⟨trees, r⟩ := pair
        refine .allFails (.ref htype) (.allStop ?_)
        cases hr : source.stream.get? r with
        | none => exact .pastEnd hr
        | some tk' => exact .refused hr (h trees r htype tk' hr)
  refine Evaluates.noNode (.choice ?_) rfl
  by_cases hparen : tk.kind = .lParen
  · refine .firstMiss (.sequence (.allFails (.accepted hget hparen) ?_))
      (.firstMiss (.sequence (.allFails (.accepted hget hparen) (htype _))) .firstNil)
    obtain ⟨next, hgetNext⟩ : ∃ next, source.stream.get? (p + 1) = some next :=
      ⟨source.stream.tokens[p + 1], Array.getElem?_eq_getElem hnext⟩
    by_cases hword : next.kind ∈ typeWords
    · exact .allFails (.notAhead (.notAhead (evaluates_oneOf hgetNext hword))) (htype _)
    · exact .allStop (.notAhead (.notAhead (evaluates_oneOf_none hgetNext hword)))
  · exact .firstMiss (.sequence (.allStop (.refused hget hparen)))
      (.firstMiss (.sequence (.allStop (.refused hget hparen))) .firstNil)

/-! ## Signs of expressions -/

theorem signs_operand_of_lt {least : Nat} (h : levelOf e < least) :
    ∃ x y, signs (operand least e) = x :: (signs (pieces e) ++ [y]) ∧ x.kind = .lParen ∧
      y.kind = .rParen := by
  rw [operand_of_lt h, inParentheses]
  exact ⟨⟨"(".toList, .lParen, none⟩, ⟨")".toList, .rParen, none⟩, by simp [mark], rfl, rfl⟩

theorem signs_member (nullConditional : Bool) (target : Expression) (word : String) :
    ∃ x, signs (pieces (.member nullConditional target word)) =
        signs (operand primaryLevel target) ++ [x, Language.csharp.nameSign word] ∧
      x.kind = if nullConditional then .questionDot else .dot := by
  cases nullConditional with
  | true => exact ⟨⟨"?.".toList, .questionDot, none⟩, by simp [pieces, operand, mark], rfl⟩
  | false => exact ⟨⟨".".toList, .dot, none⟩, by simp [pieces, operand, mark], rfl⟩

theorem signs_application (indexed : Bool) (target : Expression) (arguments : List Expression) :
    ∃ x y, signs (pieces (.application indexed target arguments)) =
        signs (operand primaryLevel target) ++
          x :: (signs (commaSeparated (allPieces arguments)) ++ [y]) ∧
      x.kind = (brackets indexed).1 ∧ y.kind = (brackets indexed).2 := by
  cases indexed with
  | true =>
      exact ⟨⟨"[".toList, .lBracket, none⟩, ⟨"]".toList, .rBracket, none⟩,
        by simp [pieces, operand, mark], rfl, rfl⟩
  | false =>
      exact ⟨⟨"(".toList, .lParen, none⟩, ⟨")".toList, .rParen, none⟩,
        by simp [pieces, operand, mark], rfl, rfl⟩

theorem signs_suffix {op : UnaryOperator} (h : op.isSuffix = true) (inner : Expression) :
    ∃ x, signs (pieces (.unary op inner)) = signs (operand primaryLevel inner) ++ [x] ∧
      x.kind = unaryKind op :=
  ⟨⟨(unaryText op).toList, unaryKind op, none⟩, by simp [pieces, operand, mark, h], rfl⟩

theorem signs_sign {op : UnaryOperator} (h : op.isSuffix = false) (inner : Expression) :
    ∃ x, signs (pieces (.unary op inner)) = x :: signs (operand unaryLevel inner) ∧
      x.kind = unaryKind op := by
  refine ⟨⟨(unaryText op).toList, unaryKind op, none⟩, ?_, rfl⟩
  cases hglue : gluesTo op inner <;> simp [pieces, operand, mark, h, hglue]

theorem signs_binary (op : BinaryOperator) (left right : Expression) :
    ∃ x, signs (pieces (.binary op left right)) =
        signs (operand (operandLevels op).1 left) ++
          x :: signs (operand (operandLevels op).2 right) ∧ x.kind = binaryKind op :=
  ⟨⟨(binaryText op).toList, binaryKind op, none⟩, by simp [pieces, operand, mark], rfl⟩

theorem signs_assignment (op : AssignmentOperator) (left value : Expression) :
    ∃ x, signs (pieces (.assignment op left value)) =
        signs (operand unaryLevel left) ++ x :: signs (operand assignmentLevel value) ∧
      x.kind = assignmentKind op :=
  ⟨⟨((assignmentText? op).getD "=").toList, assignmentKind op, none⟩,
    by simp [pieces, operand, mark], rfl⟩

theorem signs_conditional (condition yes no : Expression) :
    ∃ x y, signs (pieces (.conditional condition yes no)) =
        signs (operand coalescingLevel condition) ++ x :: (signs (operand assignmentLevel yes) ++
          y :: signs (operand assignmentLevel no)) ∧ x.kind = .question ∧ y.kind = .colon :=
  ⟨⟨"?".toList, .question, none⟩, ⟨":".toList, .colon, none⟩, by simp [pieces, operand, mark], rfl,
    rfl⟩

theorem signs_typeTest (converts : Bool) (inner : Expression) (type : String) :
    ∃ x, signs (pieces (.typeTest converts inner type)) =
        signs (operand relationalLevel inner) ++ [x, Language.csharp.nameSign type] ∧
      x.kind = if converts then .kwAs else .kwIs := by
  cases converts with
  | true => exact ⟨⟨"as".toList, .kwAs, none⟩, by simp [pieces, operand, mark], rfl⟩
  | false => exact ⟨⟨"is".toList, .kwIs, none⟩, by simp [pieces, operand, mark], rfl⟩

theorem signs_arguments_cons (a b : Expression) (rest : List Expression) :
    ∃ x, signs (commaSeparated (allPieces (a :: b :: rest))) =
        signs (pieces a) ++ x :: signs (commaSeparated (allPieces (b :: rest))) ∧
      x.kind = .comma := by
  refine ⟨⟨[','], .comma, none⟩, ?_, rfl⟩
  rw [allPieces, allPieces, commaSeparated_cons_cons]
  simp

/-! ## How expressions begin -/

def openingTokens : List TokenKind :=
  nameTokens ++ literalTokens ++ [.lParen, .kwThis, .kwBase] ++ signTokens

/-- Signs of which the first begins an expression. -/
def Opening (xs : List Sign) : Prop := ∃ x rest, xs = x :: rest ∧ x.kind ∈ openingTokens

theorem Opening.append {xs : List Sign} (h : Opening xs) (ys : List Sign) : Opening (xs ++ ys) := by
  obtain ⟨x, rest, rfl, hx⟩ := h
  exact ⟨x, rest ++ ys, rfl, hx⟩

theorem Opening.operand (h : Opening (signs (pieces e))) (least : Nat) :
    Opening (signs (operand least e)) := by
  rcases Nat.lt_or_ge (levelOf e) least with hlt | hge
  · obtain ⟨x, y, heq, hx, -⟩ := signs_operand_of_lt hlt
    exact ⟨x, _, heq, hx ▸ by decide⟩
  · rwa [operand_of_le hge]

theorem opening_pieces (h : Spellable e) : Opening (signs (pieces e)) := by
  have hnames : nameTokens ⊆ openingTokens := by decide
  have hliterals : literalTokens ⊆ openingTokens := by decide
  have hsigns : signTokens ⊆ openingTokens := by decide
  induction h with
  | name => exact ⟨_, [], rfl, hnames (nameSign_kind _)⟩
  | @literal value => exact ⟨_, [], rfl, hliterals (literalKind_mem value)⟩
  | this | base => exact ⟨_, [], rfl, of_decide_eq_true rfl⟩
  | @member nullConditional target word _ _ ih =>
      obtain ⟨x, heq, -⟩ := signs_member nullConditional target word
      exact heq ▸ (ih.operand _).append _
  | @application indexed target arguments _ _ ih =>
      obtain ⟨x, y, heq, -⟩ := signs_application indexed target arguments
      exact heq ▸ (ih.operand _).append _
  | @unary op inner _ ih =>
      cases hop : op.isSuffix with
      | true =>
          obtain ⟨x, heq, -⟩ := signs_suffix hop inner
          exact heq ▸ (ih.operand _).append _
      | false =>
          obtain ⟨x, heq, hx⟩ := signs_sign hop inner
          exact ⟨x, _, heq, hx ▸ hsigns (by cases op <;> decide)⟩
  | @binary op left right _ _ _ ih =>
      obtain ⟨x, heq, -⟩ := signs_binary op left right
      exact heq ▸ (ih.operand _).append _
  | @assignment op left value _ _ _ ih =>
      obtain ⟨x, heq, -⟩ := signs_assignment op left value
      exact heq ▸ (ih.operand _).append _
  | @conditional condition yes no _ _ _ ih =>
      obtain ⟨x, y, heq, -⟩ := signs_conditional condition yes no
      exact heq ▸ (ih.operand _).append _
  | @typeTest converts inner type _ _ ih =>
      obtain ⟨x, heq, -⟩ := signs_typeTest converts inner type
      exact heq ▸ (ih.operand _).append _

/-! ## Operators in an expression -/

/-- Signs with an operator that is no part of the name of a type, and an operand behind it. -/
def Divided (xs : List Sign) : Prop :=
  ∃ before x after, xs = before ++ x :: after ∧ x.kind ∉ typeNameTokens ∧ Opening after

/-- An expression that may have to stand in parentheses has an operator and an operand behind
it. -/
theorem divided_pieces (h : Spellable e) (hlevel : levelOf e < primaryLevel) :
    Divided (signs (pieces e)) := by
  cases h with
  | name | literal | this | base | member => exact absurd hlevel (Nat.lt_irrefl _)
  | application => simp at hlevel
  | @unary op inner hinner =>
      have hop : op.isSuffix = false := by
        by_contra hop
        rw [Bool.not_eq_false] at hop
        simp [hop] at hlevel
      obtain ⟨x, heq, hx⟩ := signs_sign hop inner
      refine ⟨[], x, _, heq, ?_, (opening_pieces hinner).operand _⟩
      rw [hx]
      cases op <;> decide
  | @binary op left right hop _ hr =>
      obtain ⟨x, heq, hx⟩ := signs_binary op left right
      refine ⟨_, x, _, heq, ?_, (opening_pieces hr).operand _⟩
      rw [hx]
      cases op <;> decide
  | @assignment op left value hop _ hv =>
      obtain ⟨x, heq, hx⟩ := signs_assignment op left value
      refine ⟨_, x, _, heq, ?_, (opening_pieces hv).operand _⟩
      rw [hx]
      cases op <;> decide
  | @conditional condition yes no _ hy _ =>
      obtain ⟨x, y, heq, hx, -⟩ := signs_conditional condition yes no
      refine ⟨_, x, _, heq, ?_, ((opening_pieces hy).operand _).append _⟩
      rw [hx]
      decide
  | @typeTest converts inner type _ _ =>
      obtain ⟨x, heq, hx⟩ := signs_typeTest converts inner type
      have hnames : nameTokens ⊆ openingTokens := by decide
      refine ⟨_, x, _, heq, ?_, _, [], rfl, hnames (nameSign_kind type)⟩
      rw [hx]
      cases converts <;> decide

/-! ## Parentheses in an expression -/

/-- Signs in which every closing parenthesis stands behind an opening one. -/
def Enclosed (xs : List Sign) : Prop :=
  ∀ before x after, xs = before ++ x :: after → x.kind = .rParen → ∃ y ∈ before, y.kind = .lParen

theorem Enclosed.nil : Enclosed [] := by
  intro before x after heq
  simp at heq

theorem Enclosed.cons {x : Sign} {xs : List Sign} (hx : x.kind ≠ .rParen)
    (h : x.kind = .lParen ∨ Enclosed xs) : Enclosed (x :: xs) := by
  intro before y after heq hy
  cases before with
  | nil =>
      rw [List.nil_append, List.cons.injEq] at heq
      exact absurd (heq.1 ▸ hy) hx
  | cons z before =>
      rw [List.cons_append, List.cons.injEq] at heq
      rcases h with hparen | h
      · exact ⟨z, List.mem_cons_self, heq.1 ▸ hparen⟩
      · obtain ⟨u, hu, hkind⟩ := h before y after heq.2 hy
        exact ⟨u, List.mem_cons_of_mem _ hu, hkind⟩

theorem Enclosed.append {xs ys : List Sign} (h : Enclosed xs) (h' : Enclosed ys) :
    Enclosed (xs ++ ys) := by
  intro before x after heq hx
  rcases List.append_eq_append_iff.mp heq with ⟨more, hbefore, hys⟩ | ⟨more, hxs, hafter⟩
  · obtain ⟨y, hy, hkind⟩ := h' more x after hys hx
    exact ⟨y, hbefore ▸ List.mem_append_right _ hy, hkind⟩
  · cases more with
    | nil =>
        rw [List.append_nil] at hxs
        rw [List.nil_append] at hafter
        obtain ⟨y, hy, -⟩ := h' [] x after hafter.symm hx
        cases hy
    | cons z more =>
        rw [List.cons_append, List.cons.injEq] at hafter
        obtain ⟨rfl, -⟩ := hafter
        exact h before x more hxs hx

theorem Enclosed.operand (h : Enclosed (signs (pieces e))) (least : Nat) :
    Enclosed (signs (operand least e)) := by
  rcases Nat.lt_or_ge (levelOf e) least with hlt | hge
  · obtain ⟨x, y, heq, hx, -⟩ := signs_operand_of_lt hlt
    exact heq ▸ .cons (hx ▸ by decide) (.inl hx)
  · rwa [operand_of_le hge]

theorem enclosed_arguments {arguments : List Expression}
    (h : ∀ a ∈ arguments, Enclosed (signs (pieces a))) :
    Enclosed (signs (commaSeparated (allPieces arguments))) := by
  induction arguments with
  | nil => exact .nil
  | cons a rest ih =>
      have hrest := ih fun b hb => h b (List.mem_cons_of_mem _ hb)
      have ha := h a List.mem_cons_self
      cases rest with
      | nil => exact ha
      | cons b rest =>
          obtain ⟨x, heq, hx⟩ := signs_arguments_cons a b rest
          exact heq ▸ ha.append (.cons (hx ▸ by decide) (.inr hrest))

theorem enclosed_pieces (h : Spellable e) : Enclosed (signs (pieces e)) := by
  have hname (word : String) : Enclosed [Language.csharp.nameSign word] := by
    have hall : ∀ k ∈ nameTokens, k ≠ .rParen := by decide
    exact .cons (hall _ (nameSign_kind word)) (.inr .nil)
  induction h with
  | @name word => exact hname word
  | @literal value =>
      have hall : ∀ k ∈ literalTokens, k ≠ .rParen := by decide
      exact .cons (hall _ (literalKind_mem value)) (.inr .nil)
  | this | base => exact .cons (of_decide_eq_true rfl) (.inr .nil)
  | @member nullConditional target word _ _ ih =>
      obtain ⟨x, heq, hx⟩ := signs_member nullConditional target word
      refine heq ▸ (ih.operand _).append (.cons ?_ (.inr (hname word)))
      rw [hx]
      cases nullConditional <;> decide
  | @application indexed target arguments _ _ ih iha =>
      obtain ⟨x, y, heq, hx, hy⟩ := signs_application indexed target arguments
      refine heq ▸ (ih.operand _).append (.cons ?_ ?_)
      · rw [hx]
        cases indexed <;> decide
      · cases indexed with
        | true => exact .inr ((enclosed_arguments iha).append (.cons (hy ▸ by decide) (.inr .nil)))
        | false => exact .inl hx
  | @unary op inner _ ih =>
      have hkind : unaryKind op ≠ .rParen := by cases op <;> decide
      cases hop : op.isSuffix with
      | true =>
          obtain ⟨x, heq, hx⟩ := signs_suffix hop inner
          exact heq ▸ (ih.operand _).append (.cons (hx ▸ hkind) (.inr .nil))
      | false =>
          obtain ⟨x, heq, hx⟩ := signs_sign hop inner
          exact heq ▸ .cons (hx ▸ hkind) (.inr (ih.operand _))
  | @binary op left right _ _ _ ihl ihr =>
      obtain ⟨x, heq, hx⟩ := signs_binary op left right
      have hkind : binaryKind op ≠ .rParen := by cases op <;> decide
      exact heq ▸ (ihl.operand _).append (.cons (hx ▸ hkind) (.inr (ihr.operand _)))
  | @assignment op left value _ _ _ ihl ihv =>
      obtain ⟨x, heq, hx⟩ := signs_assignment op left value
      have hkind : assignmentKind op ≠ .rParen := by cases op <;> decide
      exact heq ▸ (ihl.operand _).append (.cons (hx ▸ hkind) (.inr (ihv.operand _)))
  | @conditional condition yes no _ _ _ ihc ihy ihn =>
      obtain ⟨x, y, heq, hx, hy⟩ := signs_conditional condition yes no
      exact heq ▸ (ihc.operand _).append (.cons (hx ▸ by decide) (.inr
        ((ihy.operand _).append (.cons (hy ▸ by decide) (.inr (ihn.operand _))))))
  | @typeTest converts inner type _ _ ih =>
      obtain ⟨x, heq, hx⟩ := signs_typeTest converts inner type
      refine heq ▸ (ih.operand _).append (.cons ?_ (.inr (hname type)))
      rw [hx]
      cases converts <;> decide

/-! ## No cast -/

theorem noCast_of_printed {last : Token} (h : Spellable e) (hlevel : levelOf e < primaryLevel)
    (hget : source.stream.get? p = some tk)
    (hprinted : source.stream.PrintedAt (p + 1) (signs (pieces e)) q)
    (hlast : source.stream.get? q = some last) (hclose : last.kind = .rParen) :
    Evaluates grammar source.stream (.definition .castExpression) p none := by
  have hlength := hprinted.length
  have hsize := TokenStream.lt_size_of_get? hlast
  refine noCast hget (by omega) fun trees r htype tk' hr hparen => ?_
  obtain ⟨m, hname, hrank⟩ := evaluates_type htype
  -- no parenthesis is part of a type
  have hnone : ∀ i, p + 1 ≤ i → i < r → ∀ t, source.stream.get? i = some t →
      t.kind ≠ .lParen ∧ t.kind ≠ .rParen := by
    intro i hlow hhigh t ht
    have hall : ∀ k ∈ typeNameTokens ++ rankTokens, k ≠ .lParen ∧ k ≠ .rParen := by decide
    apply hall
    rcases Nat.lt_or_ge i m with hi | hi
    · obtain ⟨t', ht', hk⟩ := hname i hlow hi
      cases ht.symm.trans ht'
      exact List.mem_append_left _ (by simpa using hk)
    · obtain ⟨t', ht', hk⟩ := hrank i hi hhigh
      cases ht.symm.trans ht'
      exact List.mem_append_right _ (by simpa using hk)
  have hle : p + 1 ≤ r := (htype.advances emptyRules _ _ rfl).1
  rcases Nat.lt_trichotomy r q with hlt | rfl | hgt
  · -- the type ends inside the parentheses, in front of a closing one that was not opened
    obtain ⟨before, x, after, tk₀, heq, hbefore, hget₀, htk₀⟩ := hprinted.split hle hlt
    cases hr.symm.trans hget₀
    obtain ⟨y, hy, hkind⟩ := enclosed_pieces h before x after heq (htk₀.kind ▸ hparen)
    obtain ⟨i, t, hlow, hhigh, ht, hprints⟩ := hbefore.get hy
    exact (hnone i hlow hhigh t ht).1 (hprints.kind.trans hkind)
  · -- the type takes the operator and what follows it
    obtain ⟨before, x, after, heq, hx, y, rest, rfl, hy⟩ := divided_pieces h hlevel
    rw [heq] at hprinted
    obtain ⟨i, hbefore, t, ht, hprints, t', ht', hprints', hrest⟩ :=
      TokenStream.printedAt_append.mp hprinted
    have hi := hbefore.length
    have hq := hrest.length
    rcases Nat.lt_or_ge i m with hlt | hge
    · obtain ⟨u, hu, hkind⟩ := hname i (by omega) hlt
      cases ht.symm.trans hu
      exact hx (hprints.kind ▸ by simpa using hkind)
    · obtain ⟨u, hu, hkind⟩ := hrank (i + 1) (by omega) (by omega)
      cases ht'.symm.trans hu
      have hdisjoint : ∀ k ∈ openingTokens, k ∉ rankTokens := by decide
      exact hdisjoint _ hy (hprints'.kind ▸ by simpa using hkind)
  · exact (hnone q (by omega) hgt last hlast).2 hclose

end DualSyntax.CSharp
