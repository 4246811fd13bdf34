import DualSyntax.Proofs.Expression.CSharpCasts
import DualSyntax.Proofs.Expression.CSharpLexing
import DualSyntax.Proofs.Expression.CSharpOperators
import DualSyntax.Proofs.Expression.CSharpWriting
import DualSyntax.Proofs.Forest.Trees
import DualSyntax.Proofs.Parsing.Yields

/-!
# Operator expressions are parsed as they are written in C#

A printed expression is matched as its pieces say, and so it is read as the tree that was printed.
-/

/-!
## Matching printed C# expressions

Wherever the signs of an expression are printed in front of a token that is looser than it, the
grammar matches them at its level, and the match becomes the expression again.  The proof goes by
induction on the expression; parentheses and looser levels are dealt with once, for operands of any
level.
-/

namespace DualSyntax.CSharp

open Packrat Piece Lexing TokenStream

variable {source : Source} {e : Expression} {p q L : Nat} {tk : Token}

theorem levelOf_bounds (e : Expression) : assignmentLevel ≤ levelOf e ∧ levelOf e ≤ primaryLevel := by
  cases e with
  | application indexed => cases indexed <;> exact of_decide_eq_true rfl
  | unary op => cases op <;> exact of_decide_eq_true rfl
  | binary op => cases op <;> exact of_decide_eq_true rfl
  | typeTest converts => cases converts <;> exact of_decide_eq_true rfl
  | name | literal | this | base | member | assignment | conditional => exact of_decide_eq_true rfl

/-- How tight a token may be that follows an expression of a level.  Operators that are grouped from
the left may follow expressions of their own level. -/
def slack : Nat → Nat
  | 0 | 1 | 2 => 0
  | 3 => 2
  | 14 => 13
  | L => L

theorem slack_le (L : Nat) : slack L ≤ L := by
  unfold slack
  split <;> omega

theorem le_slack (h : coalescingLevel ≤ L) : L - 1 ≤ slack L := by
  unfold slack
  split <;> simp only [coalescingLevel] at h <;> omega

/-- An expression is matched wherever it is printed in front of a looser token. -/
def Fits (source : Source) (e : Expression) : Prop :=
  ∀ p q, source.stream.PrintedAt p (signs (pieces e)) q → Quiet source (slack (levelOf e)) q →
    Open source (levelOf e) p q e.tree

/-! ### Operands of any level -/

namespace Fits

theorem whole (h : Fits source e) (hprinted : source.stream.PrintedAt p (signs (pieces e)) q)
    (hquiet : Quiet source 0 q) : Yields grammar source .expression p q e.tree := by
  have hopen := h p q hprinted (hquiet.mono (Nat.zero_le _))
  rcases Nat.eq_or_lt_of_le (levelOf_bounds e).1 with hone | hlt
  · rw [← hone] at hopen
    generalize hL : assignmentLevel = L at hopen
    cases hopen with
    | assignment h => exact h
    | operators hmem =>
        subst hL
        exact absurd hmem (by decide)
    | conditional | coalescing | comparisons | unary | primary => exact absurd hL (by decide)
  · have hoperand := hopen.close hlt (hquiet.mono (Nat.zero_le _))
    refine (hoperand.lift ?_ (Nat.le_refl _) (Nat.min_le_right _ _)
      (hquiet.mono (Nat.zero_le _))).whole hquiet
    exact Nat.le_min.mpr ⟨hlt, by decide⟩

/-- In parentheses every expression is a simple operand. -/
theorem parenthesized (h : Fits source e) (hs : Spellable e) (hlevel : levelOf e < primaryLevel)
    {last : Token} (hget : source.stream.get? p = some tk) (hkind : tk.kind = .lParen)
    (hprinted : source.stream.PrintedAt (p + 1) (signs (pieces e)) q)
    (hlast : source.stream.get? q = some last) (hclose : last.kind = .rParen) :
    Primary source p (q + 1) e.tree := by
  have hquiet : Quiet source 0 q := ⟨last, hlast, hclose ▸ by decide⟩
  exact primary_parenthesized (h.whole hprinted hquiet) hget hkind hlast hclose
    (noCast_of_printed hs hlevel hget hprinted hlast hclose)

theorem primary_of_lt {least : Nat} (h : Fits source e) (hs : Spellable e)
    (hlt : levelOf e < least) (hle : least ≤ primaryLevel)
    (hprinted : source.stream.PrintedAt p (signs (operand least e)) q) :
    Primary source p q e.tree := by
  obtain ⟨x, y, heq, hx, hy⟩ := signs_operand_of_lt hlt
  rw [heq] at hprinted
  obtain ⟨tk, hget, htk, hrest⟩ := hprinted
  obtain ⟨m, hinner, last, hlast, hprints, rfl⟩ := TokenStream.printedAt_append.mp hrest
  exact h.parenthesized hs (Nat.lt_of_lt_of_le hlt hle) hget (htk.kind.trans hx) hinner hlast
    (hprints.kind.trans hy)

theorem target (h : Fits source e) (hs : Spellable e)
    (hprinted : source.stream.PrintedAt p (signs (operand primaryLevel e)) q)
    (hquiet : Quiet source primaryLevel q) : Primary source p q e.tree := by
  rcases Nat.eq_or_lt_of_le (levelOf_bounds e).2 with heq | hlt
  · rw [operand_of_le (Nat.le_of_eq heq.symm)] at hprinted
    have hopen := h p q hprinted (by rw [heq]; exact hquiet)
    rw [heq] at hopen
    generalize hL : primaryLevel = L at hopen
    cases hopen with
    | primary h => exact h
    | operators hmem =>
        subst hL
        exact absurd hmem (by decide)
    | assignment | conditional | coalescing | comparisons | unary => exact absurd hL (by decide)
  · exact h.primary_of_lt hs hlt (Nat.le_refl _) hprinted

theorem operand {least : Nat} (h : Fits source e) (hs : Spellable e) (hlow : coalescingLevel ≤ least)
    (hhigh : least ≤ unaryLevel)
    (hprinted : source.stream.PrintedAt p (signs (CSharp.operand least e)) q)
    (hquiet : Quiet source (least - 1) q) : Operand source least p q e.tree := by
  rcases Nat.lt_or_ge (levelOf e) least with hlt | hge
  · have hprimary := h.primary_of_lt hs hlt (Nat.le_succ_of_le hhigh) hprinted
    have hunary := hprimary.close (hquiet.mono (Nat.le_trans (Nat.sub_le _ _) hhigh))
    exact hunary.lift hhigh (Nat.le_trans (by decide) hlow) (Nat.le_refl _) hquiet
  · rw [operand_of_le hge] at hprinted
    have hle : least - 1 ≤ levelOf e - 1 := Nat.sub_le_sub_right hge 1
    have hslack := le_slack (Nat.le_trans hlow hge)
    have hopen := h p q hprinted (hquiet.mono (Nat.le_trans hle hslack))
    have hclosed := hopen.close (Nat.le_trans (by decide) (Nat.le_trans hlow hge)) (hquiet.mono hle)
    exact hclosed.lift (Nat.le_min.mpr ⟨hge, hhigh⟩) (Nat.le_trans (by decide) hlow)
      (Nat.min_le_right _ _) hquiet

theorem begun (h : Fits source e) (hs : Spellable e) (hlow : coalescingLevel ≤ L)
    (hhigh : L < unaryLevel)
    (hprinted : source.stream.PrintedAt p (signs (CSharp.operand L e)) q)
    (hquiet : Quiet source (slack L) q) : Open source L p q e.tree := by
  by_cases heq : levelOf e = L
  · rw [operand_of_le (Nat.le_of_eq heq.symm)] at hprinted
    rw [← heq] at hquiet ⊢
    exact h p q hprinted hquiet
  · have hsame : CSharp.operand L e = CSharp.operand (L + 1) e := by
      rcases Nat.lt_or_gt_of_ne heq with hlt | hgt
      · rw [operand_of_lt hlt, operand_of_lt (Nat.lt_succ_of_lt hlt)]
      · rw [operand_of_le (Nat.le_of_lt hgt), operand_of_le hgt]
    rw [hsame] at hprinted
    exact (h.operand hs (Nat.le_succ_of_le hlow) hhigh hprinted
      (hquiet.mono (slack_le L))).open hlow hhigh

end Fits

/-! ### Arguments -/

theorem Fits.argument (h : Fits source e) (hs : Spellable e)
    (hprinted : source.stream.PrintedAt p (signs (pieces e)) q) (hquiet : Quiet source 0 q) :
    Yields grammar source .argument p q e.tree := by
  have hwhole := h.whole hprinted hquiet
  obtain ⟨x, rest, heq, hx⟩ := opening_pieces hs
  rw [heq] at hprinted
  obtain ⟨tk, hget, htk, -⟩ := hprinted
  have hall : ∀ k ∈ openingTokens, k ∉ [TokenKind.kwRef, .kwOut] := by decide
  exact yields_argument hwhole hget (hall _ (htk.kind ▸ hx))

theorem argumentRow_printed {a : Expression} {rest : List Expression}
    (hs : ∀ x ∈ a :: rest, Spellable x) (h : ∀ x ∈ a :: rest, Fits source x)
    (hprinted : source.stream.PrintedAt p (signs (commaSeparated (allPieces (a :: rest)))) q)
    (hquiet : Quiet source 0 q) : ArgumentRow source p q (Expression.trees (a :: rest)) := by
  induction rest generalizing a p with
  | nil =>
      exact .single ((h a List.mem_cons_self).argument (hs a List.mem_cons_self) hprinted hquiet)
  | cons b rest ih =>
      obtain ⟨x, heq, hx⟩ := signs_arguments_cons a b rest
      rw [heq] at hprinted
      obtain ⟨m, hfirst, tk, hget, htk, hrest⟩ := printedAt_append.mp hprinted
      have hkind := htk.kind.trans hx
      have hcomma : Quiet source 0 m := ⟨tk, hget, hkind ▸ by decide⟩
      refine .cons ((h a List.mem_cons_self).argument (hs a List.mem_cons_self) hfirst hcomma) hget
        hkind (ih (fun y hy => ?_) (fun y hy => ?_) hrest)
      · exact hs y (List.mem_cons_of_mem _ hy)
      · exact h y (List.mem_cons_of_mem _ hy)

theorem arguments_printed {es : List Expression} (hs : ∀ x ∈ es, Spellable x)
    (h : ∀ x ∈ es, Fits source x)
    (hprinted : source.stream.PrintedAt p (signs (commaSeparated (allPieces es))) q)
    (hget : source.stream.get? q = some tk) (hkind : tk.kind ∈ [TokenKind.rParen, .rBracket]) :
    Arguments source p q (Expression.trees es) := by
  cases es with
  | nil =>
      have hempty : p = q := hprinted
      exact hempty ▸ arguments_nil (hempty ▸ hget) hkind
  | cons a rest =>
      have hall : ∀ k ∈ [TokenKind.rParen, .rBracket], reach k ≤ 0 ∧ k ≠ .comma := by decide
      obtain ⟨hreach, hcomma⟩ := hall _ hkind
      exact (argumentRow_printed hs h hprinted ⟨tk, hget, hreach⟩).close hget hcomma

/-! ### Expressions of every kind -/

section Kinds

variable {target inner left right value condition yes no : Expression} {word : String}

theorem fits_name (hlanguage : source.language = .csharp) (hword : IsWord word.toList) :
    Fits source (.name word) := by
  intro p q hprinted _
  obtain ⟨tk, hget, htk, rfl⟩ := hprinted
  exact .primary (nameAt hlanguage hword hget htk).primary

theorem fits_literal {v : LiteralValue} (hv : hasLiteral v = true) : Fits source (.literal v) := by
  intro p q hprinted _
  obtain ⟨tk, hget, htk, rfl⟩ := hprinted
  exact .primary (primary_literal hv hget htk)

theorem fits_this : Fits source .this := by
  intro p q hprinted _
  obtain ⟨tk, hget, htk, rfl⟩ := hprinted
  exact .primary (primary_this hget htk.kind)

theorem fits_base : Fits source .base := by
  intro p q hprinted _
  obtain ⟨tk, hget, htk, rfl⟩ := hprinted
  exact .primary (primary_base hget htk.kind)

theorem Fits.member {nullConditional : Bool} (h : Fits source target) (hs : Spellable target)
    (hlanguage : source.language = .csharp) (hword : IsWord word.toList) :
    Fits source (.member nullConditional target word) := by
  intro p q hprinted _
  obtain ⟨x, heq, hx⟩ := signs_member nullConditional target word
  rw [heq] at hprinted
  obtain ⟨m, htarget, dot, hget, hdot, name, hgetName, hname, rfl⟩ := printedAt_append.mp hprinted
  have hkind := hdot.kind.trans hx
  have hquiet : Quiet source primaryLevel m := by
    refine ⟨dot, hget, ?_⟩
    rw [hkind]
    cases nullConditional <;> decide
  exact .primary ((h.target hs htarget hquiet).member hget hkind
    (nameAt hlanguage hword hgetName hname))

theorem Fits.application {indexed : Bool} {es : List Expression} (h : Fits source target)
    (hs : Spellable target) (hes : ∀ x ∈ es, Spellable x) (hfits : ∀ x ∈ es, Fits source x) :
    Fits source (.application indexed target es) := by
  intro p q hprinted _
  obtain ⟨x, y, heq, hx, hy⟩ := signs_application indexed target es
  rw [heq] at hprinted
  obtain ⟨m, htarget, opening, hget, hopening, hrest⟩ := printedAt_append.mp hprinted
  obtain ⟨r, hinner, closing, hget', hclosing, rfl⟩ := printedAt_append.mp hrest
  have hkind := hopening.kind.trans hx
  have hkind' := hclosing.kind.trans hy
  have hquiet : Quiet source primaryLevel m := by
    refine ⟨opening, hget, ?_⟩
    rw [hkind]
    cases indexed <;> decide
  have hends : closing.kind ∈ [TokenKind.rParen, .rBracket] := by
    rw [hkind']
    cases indexed <;> decide
  rw [levelOf_application]
  exact .primary ((h.target hs htarget hquiet).application hget hkind
    (arguments_printed hes hfits hinner hget' hends) hget' hkind')

theorem Fits.suffix {op : UnaryOperator} (h : Fits source inner) (hs : Spellable inner)
    (hop : op.isSuffix = true) : Fits source (.unary op inner) := by
  intro p q hprinted _
  obtain ⟨x, heq, hx⟩ := signs_suffix hop inner
  rw [heq] at hprinted
  obtain ⟨m, hinner, tk, hget, htk, rfl⟩ := printedAt_append.mp hprinted
  have hkind := htk.kind.trans hx
  have hquiet : Quiet source primaryLevel m := by
    refine ⟨tk, hget, ?_⟩
    rw [hkind]
    cases op <;> decide
  rw [levelOf_unary, if_pos hop]
  exact .primary ((h.target hs hinner hquiet).increment hop hget hkind)

theorem Fits.sign {op : UnaryOperator} (h : Fits source inner) (hs : Spellable inner)
    (hop : op.isSuffix = false) : Fits source (.unary op inner) := by
  have hlevel : levelOf (.unary op inner) = unaryLevel := by simp [hop]
  intro p q hprinted hquiet
  rw [hlevel] at hquiet ⊢
  obtain ⟨x, heq, hx⟩ := signs_sign hop inner
  rw [heq] at hprinted
  obtain ⟨tk, hget, htk, hinner⟩ := hprinted
  have hspells : unaryKind op ∈ signTokens ∧ signOperator? (unaryKind op) = some op := by
    cases op with
    | postIncrement | postDecrement => cases hop
    | _ => decide
  have hkind := htk.kind.trans hx
  have hoperand := h.operand hs (by decide) (Nat.le_refl _) hinner hquiet
  exact .unary (hoperand.signed hget (hkind ▸ hspells.1) (hkind ▸ hspells.2))

theorem reach_binaryKind {op : BinaryOperator} (h : hasBinary op = true) :
    reach (binaryKind op) = binaryLevel op := by
  cases op with
  | concat | integerDivide | power | referenceEquality | referenceInequality => cases h
  | _ => decide

/-- Except for null-coalescing, operators are grouped from the left. -/
theorem grouping {op : BinaryOperator} (h : hasBinary op = true) (hne : op ≠ .nullCoalescing) :
    binaryLevel op ≤ slack (binaryLevel op) ∧
      (binaryLevel op = relationalLevel ∨ binaryLevel op ∈ leftLevels) := by
  cases op with
  | power => cases h
  | nullCoalescing => exact absurd rfl hne
  | _ => decide

theorem Fits.binary {op : BinaryOperator} (hleft : Fits source left) (hright : Fits source right)
    (hl : Spellable left) (hr : Spellable right) (hop : hasBinary op = true) :
    Fits source (.binary op left right) := by
  intro p q hprinted hquiet
  obtain ⟨x, heq, hx⟩ := signs_binary op left right
  rw [heq] at hprinted
  obtain ⟨m, hfirst, tk, hget, htk, hsecond⟩ := printedAt_append.mp hprinted
  have hkind := htk.kind.trans hx
  have hreach : reach tk.kind = binaryLevel op := hkind ▸ reach_binaryKind hop
  obtain ⟨hlow, hhigh⟩ := binaryLevel_le hop
  rw [levelOf_binary] at hquiet ⊢
  by_cases hcoalesce : op = .nullCoalescing
  · subst hcoalesce
    have hoperand : Operand source (coalescingLevel + 1) p m left.tree :=
      hleft.operand hl (by decide) (by decide) hfirst ⟨tk, hget, Nat.le_of_eq hreach⟩
    exact .coalesce hoperand hget hkind (hright.begun hr hlow hhigh hsecond hquiet)
  · rw [operandLevels, if_neg hcoalesce] at hfirst hsecond
    obtain ⟨hslack, hgroups⟩ := grouping hop hcoalesce
    have hopen : Open source (binaryLevel op) p m left.tree :=
      hleft.begun hl hlow hhigh hfirst ⟨tk, hget, Nat.le_trans (Nat.le_of_eq hreach) hslack⟩
    have hoperand : Operand source (binaryLevel op + 1) (m + 1) q right.tree :=
      hright.operand hr (Nat.le_succ_of_le hlow) hhigh hsecond (hquiet.mono (slack_le _))
    rcases hgroups with hten | hmem
    · rw [hten] at hopen hoperand ⊢
      exact hopen.compare hop hten hget hkind hoperand
    · exact hopen.operator hop hmem hget hkind hoperand

theorem Fits.assignment {op : AssignmentOperator} (hleft : Fits source left)
    (hvalue : Fits source value) (hl : Spellable left) (hop : hasAssignment op = true) :
    Fits source (.assignment op left value) := by
  intro p q hprinted hquiet
  obtain ⟨x, heq, hx⟩ := signs_assignment op left value
  rw [heq, operand_of_le (levelOf_bounds value).1] at hprinted
  obtain ⟨m, hfirst, tk, hget, htk, hsecond⟩ := printedAt_append.mp hprinted
  have hkind := htk.kind.trans hx
  have hspells : assignmentKind op ∈ assignmentTokens ∧
      assignmentOperator? (assignmentKind op) = some op ∧ reach (assignmentKind op) ≤ 13 := by
    cases op with
    | concat | integerDivide | power => cases hop
    | _ => decide
  rw [← hkind] at hspells
  obtain ⟨hmem, hop, hreach⟩ := hspells
  have hoperand := hleft.operand hl (by decide) (Nat.le_refl _) hfirst ⟨tk, hget, hreach⟩
  exact .assignment (hoperand.assigned hget hmem hop (hvalue.whole hsecond hquiet))

theorem Fits.conditional (hcondition : Fits source condition) (hyes : Fits source yes)
    (hno : Fits source no) (hs : Spellable condition) :
    Fits source (.conditional condition yes no) := by
  intro p q hprinted hquiet
  obtain ⟨x, y, heq, hx, hy⟩ := signs_conditional condition yes no
  rw [heq, operand_of_le (levelOf_bounds yes).1, operand_of_le (levelOf_bounds no).1] at hprinted
  obtain ⟨p₁, hfirst, question, hget, hquestion, hrest⟩ := printedAt_append.mp hprinted
  obtain ⟨p₂, hsecond, colon, hget', hcolon, hthird⟩ := printedAt_append.mp hrest
  have hkind := hquestion.kind.trans hx
  have hkind' := hcolon.kind.trans hy
  have hoperand : Operand source coalescingLevel p p₁ condition.tree :=
    hcondition.operand hs (Nat.le_refl _) (by decide) hfirst ⟨question, hget, hkind ▸ by decide⟩
  have hmiddle := hyes.whole hsecond ⟨colon, hget', hkind' ▸ by decide⟩
  exact .conditional (hoperand.conditional hget hkind hmiddle hget' hkind'
    (hno.whole hthird hquiet))

theorem Fits.typeTest {converts : Bool} (h : Fits source inner) (hs : Spellable inner)
    (hlanguage : source.language = .csharp) (hword : IsWord word.toList) :
    Fits source (.typeTest converts inner word) := by
  intro p q hprinted hquiet
  obtain ⟨x, heq, hx⟩ := signs_typeTest converts inner word
  rw [heq] at hprinted
  obtain ⟨m, hinner, tk, hget, htk, type, hgetType, htype, rfl⟩ := printedAt_append.mp hprinted
  have hkind := htk.kind.trans hx
  have hreach : reach tk.kind ≤ slack relationalLevel := by
    rw [hkind]
    cases converts <;> decide
  rw [levelOf_typeTest] at hquiet ⊢
  have hopen := h.begun hs (by decide) (by decide) hinner ⟨tk, hget, hreach⟩
  exact hopen.typeTest hget hkind
    ((nameAt hlanguage hword hgetType htype).type (hquiet.mono (slack_le _)))

end Kinds

/-- Every expression that has words in C# is matched wherever it is printed. -/
theorem fits (hlanguage : source.language = .csharp) (h : Spellable e) : Fits source e := by
  induction h with
  | name hword => exact fits_name hlanguage hword
  | literal hvalue => exact fits_literal hvalue
  | this => exact fits_this
  | base => exact fits_base
  | member ht hword ih => exact ih.member ht hlanguage hword
  | application ht ha ih iha => exact ih.application ht ha iha
  | @unary op inner hinner ih =>
      cases hop : op.isSuffix with
      | true => exact ih.suffix hinner hop
      | false => exact ih.sign hinner hop
  | binary hop hl hr ihl ihr => exact ihl.binary ihr hl hr hop
  | assignment hop hl _ ihl ihv => exact ihl.assignment ihv hl hop
  | conditional hc _ _ ihc ihy ihn => exact ihc.conditional ihy ihn hc
  | typeTest hinner hword ih => exact ih.typeTest hinner hlanguage hword

end DualSyntax.CSharp

/-!
## Operator expressions are parsed as they are written in C#

The writer puts parentheses exactly where the grammar would group the operators in another way, or
would read a longer sign: what it writes for a tree of operators is parsed into a tree that agrees
with it once the parentheses are gone.
-/

namespace DualSyntax.CSharp

open Piece Writing

variable {e : Expression}

/-! ### Depths -/

/-- An expression is as deep as its tree, but for names and literals without a node below them. -/
theorem depth_le_of_within (h : Spellable e) {k : Nat} (hk : e.tree.Within k) : e.depth ≤ k + 1 := by
  induction h generalizing k with
  | name | literal | this | base =>
      obtain ⟨j, rfl, -⟩ := hk.parts
      exact Nat.le_add_left _ _
  | @member nullConditional target word _ _ ih =>
      obtain ⟨j, rfl, hparts⟩ := hk.parts
      have htarget := ih (hparts (.target, target.tree) (by simp [Expression.tree, Tree.parts]) rfl)
      exact Nat.succ_le_succ htarget
  | @application indexed target arguments _ _ ih iha =>
      obtain ⟨j, rfl, hparts⟩ := hk.parts
      have htarget := ih (hparts (.target, target.tree) (by simp [Expression.tree, Tree.parts]) rfl)
      have harguments : Expression.depthOf arguments ≤ j + 1 := by
        refine Expression.depthOf_le fun a ha => iha a ha (hparts (.arguments, a.tree) ?_ rfl)
        simpa [Expression.tree, Tree.parts, Expression.trees_eq_map] using ⟨a, ha, rfl⟩
      exact Nat.succ_le_succ (Nat.max_le.mpr ⟨htarget, harguments⟩)
  | @unary op inner _ ih =>
      obtain ⟨j, rfl, hparts⟩ := hk.parts
      have hinner := ih (hparts (.expression, inner.tree) (by simp [Expression.tree, Tree.parts]) rfl)
      exact Nat.succ_le_succ hinner
  | @binary op left right _ _ _ ihl ihr =>
      obtain ⟨j, rfl, hparts⟩ := hk.parts
      have hleft := ihl (hparts (.left, left.tree) (by simp [Expression.tree, Tree.parts]) rfl)
      have hright := ihr (hparts (.right, right.tree) (by simp [Expression.tree, Tree.parts]) rfl)
      exact Nat.succ_le_succ (Nat.max_le.mpr ⟨hleft, hright⟩)
  | @assignment op left value _ _ _ ihl ihv =>
      obtain ⟨j, rfl, hparts⟩ := hk.parts
      have hleft := ihl (hparts (.left, left.tree) (by simp [Expression.tree, Tree.parts]) rfl)
      have hvalue := ihv (hparts (.value, value.tree) (by simp [Expression.tree, Tree.parts]) rfl)
      exact Nat.succ_le_succ (Nat.max_le.mpr ⟨hleft, hvalue⟩)
  | @conditional condition yes no _ _ _ ihc ihy ihn =>
      obtain ⟨j, rfl, hparts⟩ := hk.parts
      have hcondition := ihc (hparts (.condition, condition.tree)
        (by simp [Expression.tree, Tree.parts]) rfl)
      have hyes := ihy (hparts (.trueExpression, yes.tree)
        (by simp [Expression.tree, Tree.parts]) rfl)
      have hno := ihn (hparts (.falseExpression, no.tree)
        (by simp [Expression.tree, Tree.parts]) rfl)
      exact Nat.succ_le_succ (Nat.max_le.mpr ⟨hcondition, Nat.max_le.mpr ⟨hyes, hno⟩⟩)
  | @typeTest converts inner type _ _ ih =>
      obtain ⟨j, rfl, hparts⟩ := hk.parts
      have hinner := ih (hparts (.expression, inner.tree) (by simp [Expression.tree, Tree.parts]) rfl)
      exact Nat.succ_le_succ hinner

/-! ### There and back -/

/-- A tree of an expression is written as the pieces of the expression. -/
theorem write_expression {f : Forest} {root : NodeId} {style : Style} (h : Spellable e)
    (hroot : f.Holds root e.tree) (hcomments : f.children root .leadingTrivia = [])
    (hstyle : style.indentUnit? ≠ none) :
    ∃ o, write .csharp f root style = .ok o ∧ o.text.toList = textOf (pieces e) := by
  have hdepth : e.depth ≤ 2 * f.size + 2 := by
    have hwithin := depth_le_of_within h hroot.within
    omega
  exact write_of_writes hstyle hcomments (writes_pieces h hdepth root hroot)

theorem tree_not_compilationUnit (e : Expression) :
    e.tree.kind.agrees .compilationUnit = false := by
  rw [Expression.tree_kind]
  cases e with
  | application indexed => cases indexed <;> rfl
  | typeTest converts => cases converts <;> rfl
  | _ => rfl

/-- The printed text of an expression is parsed into a tree that reads as the expression. -/
theorem parse_expression (h : Spellable e) :
    ∃ parsed, parse .csharp .expression (textOf (pieces e)) = .ok parsed ∧
      parsed.diagnostics = [] ∧
      parsed.forest.Reads (· < parsed.forest.size) parsed.root e.tree := by
  obtain ⟨s, ts, last, hs, htokens, hlast, hprints⟩ := tokenize_expression h
  have hsize : s.size - 1 = (signs (pieces e)).length := by
    rw [TokenStream.size, ← Array.length_toList, htokens, hprints.length_eq]
    simp
  have hget : s.get? (s.size - 1) = some last := by
    rw [hsize, hprints.length_eq, TokenStream.get?, ← Array.getElem?_toList, htokens]
    simp
  have hprinted : s.PrintedAt 0 (signs (pieces e)) (s.size - 1) := by
    have hall := TokenStream.printedAt_of_prints hprints (List.nil_append ts ▸ htokens)
    rwa [List.length_nil, Nat.zero_add, ← hsize] at hall
  have hquiet : Quiet ⟨.csharp, s, .ofText (textOf (pieces e))⟩ 0 (s.size - 1) :=
    ⟨last, hget, by rw [hlast]; decide⟩
  exact parse_of_yields hs hget ((fits rfl h).whole hprinted hquiet) (tree_not_compilationUnit e)

/-- The nodes of `a + b` times the negation of the negation of `c`. -/
def nestedSigns : Forest :=
  ⟨#[⟨.binaryOperatorExpression .multiply, {}, none, [(.left, 1), (.right, 6)]⟩,
     ⟨.binaryOperatorExpression .add, {}, some 0, [(.left, 2), (.right, 4)]⟩,
     ⟨.identifierExpression, {}, some 1, [(.identifier, 3)]⟩,
     ⟨.identifier "a", {}, some 2, []⟩,
     ⟨.identifierExpression, {}, some 1, [(.identifier, 5)]⟩,
     ⟨.identifier "b", {}, some 4, []⟩,
     ⟨.unaryOperatorExpression .minus, {}, some 0, [(.expression, 7)]⟩,
     ⟨.unaryOperatorExpression .minus, {}, some 6, [(.expression, 8)]⟩,
     ⟨.identifierExpression, {}, some 7, [(.identifier, 9)]⟩,
     ⟨.identifier "c", {}, some 8, []⟩]⟩

example : (write .csharp nestedSigns 0 {}).toOption.map (·.text) = some "(a + b) * - -c" := by
  decide

end DualSyntax.CSharp
