import DualSyntax.Proofs.Expression.CSharpPieces
import DualSyntax.Proofs.Packrat.LeftCalls
import DualSyntax.Proofs.Parsing.Yields

/-!
# Levels of C# expressions

The grammar has a definition for every level of the writer, and an operand of one level is matched
by the definitions of all looser ones if the token behind it belongs to none of them.  `Open` says
what has been matched of an expression of a level, wherever it may end; `Operand` says that it has
come to its end.
-/

namespace DualSyntax.CSharp

open Packrat Lowering

def levelForm : Nat → Form
  | 0 | 1 => .expression
  | 2 => .conditionalExpression
  | 3 => .nullCoalescingExpression
  | 4 => .conditionalOrExpression
  | 5 => .conditionalAndExpression
  | 6 => .inclusiveOrExpression
  | 7 => .exclusiveOrExpression
  | 8 => .andExpression
  | 9 => .equalityExpression
  | 10 => .relationalExpression
  | 11 => .shiftExpression
  | 12 => .additiveExpression
  | 13 => .multiplicativeExpression
  | _ => .unaryExpression

/-- The operators between the operands of a level, comparisons and type tests apart. -/
def operatorRule : Nat → Rule Form
  | 3 => tok .questionQuestion
  | 4 => .oneOf [.pipePipe]
  | 5 => .oneOf [.ampAmp]
  | 6 => .oneOf [.pipe]
  | 7 => .oneOf [.caret]
  | 8 => .oneOf [.amp]
  | 9 => .oneOf [.eqEq, .bangEq]
  | 11 => .oneOf [.ltLt, .gtGt]
  | 12 => .oneOf [.plus, .minus]
  | _ => .oneOf [.star, .slash, .percent]

def suffixTokens : List TokenKind :=
  [.dot, .questionDot, .lParen, .lBracket, .plusPlus, .minusMinus]

/-- The level of the expressions that go on with a token; tokens that end every expression have
none. -/
def reach (k : TokenKind) : Nat :=
  match binaryOperator? k with
  | some op => binaryLevel op
  | none =>
    if assignmentTokens.contains k then assignmentLevel
    else if k = .question then conditionalLevel
    else if [.kwIs, .kwAs].contains k then relationalLevel
    else if suffixTokens.contains k then primaryLevel
    else 0

variable {source : Source} {d : Form} {p q r L M : Nat} {t t' : Tree} {tk : Token}

/-- The token at a position goes on with no expression that is tighter than a level. -/
def Quiet (source : Source) (L q : Nat) : Prop :=
  ∃ tk, source.stream.get? q = some tk ∧ reach tk.kind ≤ L

theorem Quiet.mono (h : Quiet source L q) (hle : L ≤ M) : Quiet source M q := by
  obtain ⟨tk, hget, hreach⟩ := h
  exact ⟨tk, hget, Nat.le_trans hreach hle⟩

/-! ## Failures -/

/-- A definition fails at a token with which none of its matches begins. -/
theorem fails_at (p : TokenKind → Bool) (hget : source.stream.get? q = some tk)
    (hp : p tk.kind = false) (hd : mayMatchNothing d = false)
    (hbegins : grammar.begins mayMatchNothing p 60 (.ref d) = true) :
    Evaluates grammar source.stream (.definition d) q none := by
  have hgoal : (Goal.definition d).begins grammar mayMatchNothing p 59 = true := hbegins
  exact evaluates_none (Language.not_leftRecursive .csharp source.stream) emptyRules hget hd hgoal hp

/-- A definition whose matches begin with tokens of a level fails in front of a looser one. -/
theorem Quiet.fails (h : Quiet source L q) (hlt : L < M) (hd : mayMatchNothing d = false)
    (hbegins : grammar.begins mayMatchNothing (fun k => reach k == M) 60 (.ref d) = true) :
    Evaluates grammar source.stream (.definition d) q none := by
  obtain ⟨tk, hget, hreach⟩ := h
  refine fails_at _ hget ?_ hd hbegins
  simpa using Nat.ne_of_lt (Nat.lt_of_le_of_lt hreach hlt)

/-! ## Operands -/

/-- The unary expression at a position ends at another one, or in front of a token that is no
assignment. -/
def Heads (source : Source) (p q : Nat) : Prop :=
  ∃ raw r, Evaluates grammar source.stream (.definition .unaryExpression) p (some ([raw], r)) ∧
    (r = q ∨ ∃ tk, source.stream.get? r = some tk ∧ tk.kind ∉ assignmentTokens)

/-- Behind a token that is no assignment an expression may go on anywhere. -/
theorem Heads.extend (h : Heads source p q) (hget : source.stream.get? q = some tk)
    (htk : tk.kind ∉ assignmentTokens) (r : Nat) : Heads source p r := by
  obtain ⟨raw, r', hraw, rfl | hstop⟩ := h
  · exact ⟨raw, _, hraw, .inr ⟨tk, hget, htk⟩⟩
  · exact ⟨raw, r', hraw, .inr hstop⟩

/-- An expression of a level that has come to its end. -/
structure Operand (source : Source) (L p q : Nat) (t : Tree) : Prop where
  yields : Yields grammar source (levelForm L) p q t
  heads : Heads source p q

/-- An operand with suffixes, which is neither a cast nor has an operator in front of it. -/
structure Primary (source : Source) (p q : Nat) (t : Tree) : Prop where
  suffixes : Suffixes grammar source .primaryExpression .postfixSuffix
    (fun recur => applySuffixes grammar recur) p q t
  noSign : Evaluates grammar source.stream (.definition .prefixUnaryExpression) p none
  noCast : Evaluates grammar source.stream (.definition .castExpression) p none

def leftLevels : List Nat := [4, 5, 6, 7, 8, 9, 11, 12, 13]

/-- What has been matched of an expression of a level. -/
inductive Open (source : Source) : Nat → Nat → Nat → Tree → Prop
  | assignment {p q : Nat} {t : Tree} (h : Yields grammar source .expression p q t) :
      Open source assignmentLevel p q t
  | conditional {p q : Nat} {t : Tree} (h : Operand source conditionalLevel p q t) :
      Open source conditionalLevel p q t
  | coalescing {p q : Nat} {t : Tree}
      (h : ChainRight grammar source (levelForm (coalescingLevel + 1)) (operatorRule coalescingLevel)
        binaryOperator? p q t) (hheads : Heads source p q) : Open source coalescingLevel p q t
  | operators {L p q : Nat} {t : Tree} (hL : L ∈ leftLevels)
      (h : ChainLeft grammar source (levelForm (L + 1)) (operatorRule L) binaryOperator? p q t)
      (hheads : Heads source p q) : Open source L p q t
  | comparisons {p q : Nat} {t : Tree}
      (h : Suffixes grammar source .shiftExpression .relationalTail
        (fun recur => applyComparisons grammar recur binaryOperator?) p q t)
      (hheads : Heads source p q) : Open source relationalLevel p q t
  | unary {p q : Nat} {t : Tree} (h : Operand source unaryLevel p q t) : Open source unaryLevel p q t
  | primary {p q : Nat} {t : Tree} (h : Primary source p q t) : Open source primaryLevel p q t

/-! ## Ends of expressions -/

theorem rule_of_leftLevel (h : L ∈ leftLevels) :
    grammar.rule (levelForm L) = some ((Rule.ref (levelForm (L + 1))).sepBy1 (operatorRule L)) ∧
      grammar.keepsTrivia (levelForm L) = false ∧
      ∀ ks, grammar.shape (levelForm L) ks = .chain binaryOperator? false := by
  simp only [leftLevels, List.mem_cons, List.not_mem_nil, or_false] at h
  rcases h with rfl | rfl | rfl | rfl | rfl | rfl | rfl | rfl | rfl <;>
    exact ⟨rfl, rfl, fun _ => rfl⟩

theorem begins_operatorRule (h : L ∈ coalescingLevel :: leftLevels) :
    (operatorRule L).mayBeEmpty mayMatchNothing = false ∧
      grammar.begins mayMatchNothing (fun k => reach k == L) 3 (operatorRule L) = true := by
  have hall : (coalescingLevel :: leftLevels).all (fun L =>
      !(operatorRule L).mayBeEmpty mayMatchNothing &&
        grammar.begins mayMatchNothing (fun k => reach k == L) 3 (operatorRule L)) = true := by
    decide
  have hL := List.all_eq_true.mp hall L h
  rw [Bool.and_eq_true, Bool.not_eq_true'] at hL
  exact hL

/-- In front of a looser token no further operand of a level follows. -/
theorem Quiet.rowEnds (h : Quiet source (L - 1) q) (hL : L ∈ coalescingLevel :: leftLevels) :
    RowEnds grammar source.stream (.ref (levelForm (L + 1))) (some (operatorRule L)) q := by
  obtain ⟨tk, hget, hreach⟩ := h
  obtain ⟨hempty, hbegins⟩ := begins_operatorRule hL
  have hpos : 0 < L := by
    have hall : ∀ M ∈ coalescingLevel :: leftLevels, 0 < M := by decide
    exact hall L hL
  have hgoal : (Goal.rule (operatorRule L)).begins grammar mayMatchNothing (fun k => reach k == L) 3 =
      true := hbegins
  refine .separator (evaluates_none (Language.not_leftRecursive .csharp source.stream) emptyRules hget
    hempty hgoal ?_)
  have hne : reach tk.kind ≠ L := by omega
  simpa using hne

/-- An expression with operators between its operands ends in front of a looser token. -/
theorem Open.close_operators (h : ChainLeft grammar source (levelForm (L + 1)) (operatorRule L)
      binaryOperator? p q t) (hheads : Heads source p q) (hL : L ∈ leftLevels)
    (hquiet : Quiet source (L - 1) q) : Operand source L p q t := by
  obtain ⟨hrule, htrivia, hshape⟩ := rule_of_leftLevel hL
  exact ⟨h.close hrule htrivia hshape (hquiet.rowEnds (List.mem_cons_of_mem _ hL)), hheads⟩

theorem Open.close_coalescing (h : ChainRight grammar source (levelForm (coalescingLevel + 1))
      (operatorRule coalescingLevel) binaryOperator? p q t) (hheads : Heads source p q)
    (hquiet : Quiet source conditionalLevel q) : Operand source coalescingLevel p q t :=
  ⟨h.close (d := Form.nullCoalescingExpression) rfl rfl (fun _ => rfl)
    (hquiet.rowEnds List.mem_cons_self), hheads⟩

theorem Open.close_comparisons (h : Suffixes grammar source .shiftExpression .relationalTail
      (fun recur => applyComparisons grammar recur binaryOperator?) p q t)
    (hheads : Heads source p q) (hquiet : Quiet source (relationalLevel - 1) q) :
    Operand source relationalLevel p q t := by
  have hend : Evaluates grammar source.stream (.definition .relationalTail) q none :=
    hquiet.fails (M := relationalLevel) (by decide) rfl (by decide)
  refine ⟨h.close (d := Form.relationalExpression) rfl hend fun first items hbuilds hitems => ?_,
    hheads⟩
  exact Lowers.comparisons hbuilds hitems rfl (fun _ => rfl) p q

/-- An operand ends in front of a token that begins no suffix. -/
theorem Primary.close (h : Primary source p q t) (hquiet : Quiet source unaryLevel q) :
    Operand source unaryLevel p q t := by
  have hend : Evaluates grammar source.stream (.definition .postfixSuffix) q none :=
    hquiet.fails (M := primaryLevel) (by decide) rfl (by decide)
  have hpostfix : Yields grammar source .postfixExpression p q t :=
    h.suffixes.close rfl hend fun first items hbuilds hitems =>
      Lowers.suffixed hbuilds hitems rfl (fun _ => rfl) p q
  have hunary : Yields grammar source .unaryExpression p q t := by
    refine hpostfix.through (d := Form.unaryExpression) rfl (fun raw hraw => ?_) rfl
    exact .choice (.firstMiss (.ref h.noSign) (.firstMiss (.ref h.noCast) (.firstHit (.ref hraw))))
  obtain ⟨raw, hraw, hlowers⟩ := hunary
  exact ⟨⟨raw, hraw, hlowers⟩, raw, q, hraw, .inl rfl⟩

/-- An expression of a level ends in front of a looser token. -/
theorem Open.close (h : Open source L p q t) (hL : conditionalLevel ≤ L)
    (hquiet : Quiet source (L - 1) q) : Operand source (min L unaryLevel) p q t := by
  cases h with
  | assignment => exact absurd hL (by decide)
  | conditional h => exact h
  | coalescing h hheads => exact close_coalescing h hheads hquiet
  | operators hmem h hheads =>
      have hle : ∀ M ∈ leftLevels, M ≤ unaryLevel := by decide
      rw [Nat.min_eq_left (hle L hmem)]
      exact close_operators h hheads hmem hquiet
  | comparisons h hheads => exact close_comparisons h hheads hquiet
  | unary h => exact h
  | primary h => exact h.close hquiet

/-! ## Looser levels -/

/-- An operand begins an expression of the next looser level. -/
theorem Operand.open (h : Operand source (L + 1) p q t) (hlow : coalescingLevel ≤ L)
    (hhigh : L < unaryLevel) : Open source L p q t := by
  obtain ⟨hyields, hheads⟩ := h
  by_cases hthree : L = coalescingLevel
  · subst hthree
    exact .coalescing (hyields.chainRight _ _) hheads
  · by_cases hten : L = relationalLevel
    · subst hten
      exact .comparisons (hyields.suffixes _ _) hheads
    · have hmem : L ∈ leftLevels := by
        simp only [coalescingLevel, unaryLevel, relationalLevel] at *
        simp only [leftLevels, List.mem_cons, List.not_mem_nil, or_false]
        omega
      exact .operators hmem (hyields.chainLeft _ _) hheads

/-- An operand is an expression of the next looser level in front of a token that is looser yet. -/
theorem Operand.loosen (h : Operand source (L + 1) p q t) (hlow : conditionalLevel ≤ L)
    (hhigh : L < unaryLevel) (hquiet : Quiet source (L - 1) q) : Operand source L p q t := by
  rcases Nat.eq_or_lt_of_le hlow with rfl | hlt
  · -- no condition without a question mark
    obtain ⟨tk, hget, hreach⟩ := hquiet
    have hquestion : tk.kind ≠ .question := by
      intro hkind
      rw [hkind] at hreach
      exact absurd hreach (by decide)
    refine ⟨h.yields.through (d := Form.conditionalExpression) rfl (fun raw hraw => ?_) rfl, h.heads⟩
    exact .sequence (.allStep (.ref hraw) (.allStep
      (.optional (.sequence (.allStop (.refused hget hquestion)))) .allNil))
  · have hclose := (h.open hlt hhigh).close hlow hquiet
    rwa [Nat.min_eq_left (Nat.le_of_lt hhigh)] at hclose

/-- An operand is an expression of every looser level in front of a token that is looser yet. -/
theorem Operand.lift (h : Operand source M p q t) (hle : L ≤ M) (hlow : conditionalLevel ≤ L)
    (hhigh : M ≤ unaryLevel) (hquiet : Quiet source (L - 1) q) : Operand source L p q t := by
  induction hle with
  | refl => exact h
  | @step M hle ih =>
      refine ih (h.loosen (Nat.le_trans hlow hle) hhigh (hquiet.mono ?_)) (Nat.le_of_succ_le hhigh)
      exact Nat.sub_le_sub_right hle 1

theorem Operand.whole (h : Operand source conditionalLevel p q t) (hquiet : Quiet source 0 q) :
    Yields grammar source .expression p q t := by
  obtain ⟨raw, r, hraw, hstop⟩ := h.heads
  obtain ⟨tk, hget, htk⟩ : ∃ tk, source.stream.get? r = some tk ∧ tk.kind ∉ assignmentTokens := by
    rcases hstop with rfl | hstop
    · obtain ⟨tk, hget, hreach⟩ := hquiet
      have hall : ∀ k ∈ assignmentTokens, ¬ reach k ≤ 0 := by decide
      exact ⟨tk, hget, fun hmem => hall _ hmem hreach⟩
    · exact hstop
  have hfails : Evaluates grammar source.stream (.definition .assignmentExpression) p none :=
    .noNode (.sequence (.allStep (.ref hraw) (.allStop (evaluates_oneOf_none hget htk)))) rfl
  refine h.yields.through (d := Form.expression) rfl (fun raw hraw => ?_) rfl
  exact .choice (.firstMiss (.ref hfails) (.firstHit (.ref hraw)))

end DualSyntax.CSharp
