import DualSyntax.Proofs.Forest.Copies
import DualSyntax.Proofs.Semantics.Ranges
import DualSyntax.Proofs.Semantics.Termination

/-!
# Constants that do not fit their types

Nothing checks that a constant fits its type.  But one that does not can be traced down the tree to a
step that may leave the range of its type and does: a step that may not gives a constant that fits,
if those that it is computed from do.
-/

namespace DualSyntax

namespace Semantics

variable {α β : Type} {w : World} {scopes : List Scope} {n : NodeId} {m : Meaning}
  {value : ConstantValue}

/-! ## Answers -/

/-- A question has an answer for something that may be remembered. -/
def Answered (w : World) (ask : Ask α) (a : α) : Prop :=
  ∃ memory memory', ask w memory = some (a, memory')

theorem answered_pure {a b : α} (h : Answered w (pure a) b) : b = a := by
  obtain ⟨memory, memory', hrun⟩ := h
  cases hrun
  rfl

theorem answered_bind {x : Ask α} {next : α → Ask β} {b : β} (h : Answered w (x >>= next) b) :
    ∃ a, Answered w x a ∧ Answered w (next a) b := by
  obtain ⟨memory, memory', hrun⟩ := h
  obtain ⟨⟨a, memory₁⟩, ha, hb⟩ := Option.bind_eq_some_iff.mp hrun
  exact ⟨a, ⟨memory, memory₁, ha⟩, memory₁, memory', hb⟩

theorem not_answered_failure {a : α} : ¬ Answered w failure a := by
  rintro ⟨memory, memory', ⟨⟩⟩

theorem answered_forest {next : Forest → Ask β} {b : β} (h : Answered w (forest >>= next) b) :
    Answered w (next w.forest) b := h

/-- An expression comes to a meaning in scopes, with some fuel. -/
def Means (w : World) (scopes : List Scope) (n : NodeId) (m : Meaning) : Prop :=
  ∃ fuel, Answered w ((answersUpTo fuel).expression n scopes) m

/-- A meaning has a constant value, which is found with some fuel. -/
def HasValue (w : World) (m : Meaning) (value : ConstantValue) : Prop :=
  ∃ fuel, Answered w ((answersUpTo fuel).constant m) (some value)

theorem hasValue_constant {v : ConstantValue} {type : Option TypeRef}
    (h : HasValue w (.constant v type) value) : value = v := by
  obtain ⟨fuel, h⟩ := h
  cases fuel with
  | zero => exact absurd h not_answered_failure
  | succ fuel => exact Option.some.inj (answered_pure h)

theorem not_hasValue_failed {message : String} : ¬ HasValue w (.failed message) value := by
  rintro ⟨fuel, h⟩
  cases fuel with
  | zero => exact not_answered_failure h
  | succ fuel => cases answered_pure h

/-! ## Steps -/

/-- The kinds of expressions whose constants may not fit their types though those of the expressions
below them do. -/
def MayOverflow (kind : NodeKind) (m : Meaning) (value : ConstantValue) : Prop :=
  match kind with
  | .primitiveExpression literal => ∃ i suffix, literal.value = .integer i suffix ∧ suffix ≠ .none
  | .parenthesizedExpression | .directionExpression _ | .assignmentExpression _
  | .conditionalExpression => False
  | .unaryOperatorExpression op => Folding.MayOverflowUnary op m.type?
  | .binaryOperatorExpression op => Folding.MayOverflow op m.type? value
  | _ => True

/-- An expression has a value that does not fit its type, by a step that may do so. -/
def Overflows (w : World) (scopes : List Scope) (n : NodeId) : Prop :=
  ∃ m value, Means w scopes n m ∧ HasValue w m value ∧ ¬ value.Fits m.type? ∧
    MayOverflow (w.forest.kind n) m value

variable {answers : Answers}

theorem answered_resolveChild {t : Title} (h : Answered w (resolveChild answers n t scopes) m)
    (hvalue : HasValue w m value) :
    ∃ c ∈ w.forest.childIds n, Answered w (answers.expression c scopes) m := by
  replace h := answered_forest h
  split at h
  · rename_i c hc
    exact ⟨c, Forest.mem_childIds_of_child? hc, h⟩
  · obtain ⟨f, -, h⟩ := answered_bind h
    obtain rfl := answered_pure h
    exact absurd hvalue not_hasValue_failed

theorem answered_resolveConditional (h : Answered w (resolveConditional answers n scopes) m)
    (hvalue : HasValue w m value) : ∃ t, Answered w (resolveChild answers n t scopes) m := by
  obtain ⟨condition, -, h⟩ := answered_bind h
  obtain ⟨holds, -, h⟩ := answered_bind h
  split at h
  · exact ⟨_, h⟩
  · exact ⟨_, h⟩
  · obtain rfl := answered_pure h
    exact absurd hvalue not_hasValue_failed

theorem answered_resolveUnary {op : UnaryOperator}
    (h : Answered w (resolveUnary answers n op scopes) m) (hvalue : HasValue w m value) :
    ∃ operand a, Answered w (resolveChild answers n .expression scopes) operand ∧
      Answered w (answers.constant operand) (some a) ∧ Folding.unary? op a = some value ∧
      m.type? = operand.type? := by
  obtain ⟨operand, hoperand, h⟩ := answered_bind h
  obtain ⟨a, ha, h⟩ := answered_bind h
  cases a with
  | none =>
      obtain rfl := answered_pure h
      exact absurd hvalue not_hasValue_failed
  | some a =>
      dsimp only at h
      split at h
      · rename_i result hresult
        obtain rfl := answered_pure h
        obtain rfl := hasValue_constant hvalue
        exact ⟨operand, a, hoperand, ha, hresult, rfl⟩
      · obtain rfl := answered_pure h
        exact absurd hvalue not_hasValue_failed

theorem answered_resolveBinary {op : BinaryOperator}
    (h : Answered w (resolveBinary answers n op scopes) m) (hvalue : HasValue w m value) :
    ∃ left right a b, Answered w (resolveChild answers n .left scopes) left ∧
      Answered w (resolveChild answers n .right scopes) right ∧
      Answered w (answers.constant left) (some a) ∧ Answered w (answers.constant right) (some b) ∧
      Folding.binary? op a b = some value ∧ m.type? =
        some ((Folding.binaryType? op left.type? right.type?).getD (Folding.typeOf value)) := by
  obtain ⟨left, hleft, h⟩ := answered_bind h
  obtain ⟨right, hright, h⟩ := answered_bind h
  obtain ⟨a, ha, h⟩ := answered_bind h
  obtain ⟨b, hb, h⟩ := answered_bind h
  rcases a with _ | a
  · obtain rfl := answered_pure h
    exact absurd hvalue not_hasValue_failed
  rcases b with _ | b
  · obtain rfl := answered_pure h
    exact absurd hvalue not_hasValue_failed
  dsimp only at h
  split at h
  · rename_i result hresult
    obtain rfl := answered_pure h
    obtain rfl := hasValue_constant hvalue
    exact ⟨left, right, a, b, hleft, hright, ha, hb, hresult, rfl⟩
  · obtain rfl := answered_pure h
    exact absurd hvalue not_hasValue_failed

/-! ## Down the tree -/

def HasWords (f : Forest) : Prop :=
  ∀ n i suffix spelling, f.kind n = .primitiveExpression ⟨.integer i suffix, spelling⟩ → i < 2 ^ 64

theorem literal_fits (v : LiteralValue) :
    (∀ i suffix, v = .integer i suffix → suffix = .none ∧ i < 2 ^ 64) →
      (ConstantValue.ofLiteral v).Fits
        (match v with | .null => some .null | value => value.type?.map .known) := by
  intro h
  cases v with
  | null => rintro i ⟨⟩
  | _ => exact Folding.ofLiteral_fits h

/-- A constant fits its type, or some step at or below it overflows. -/
theorem fits_or_overflows (hf : w.forest.WellLinked) (hwords : HasWords w.forest) {fuel : Nat}
    (hm : Answered w ((answersUpTo fuel).expression n scopes) m) (hvalue : HasValue w m value) :
    value.Fits m.type? ∨ ∃ c ∈ w.forest.descendants n, Overflows w scopes c := by
  induction fuel generalizing n m value with
  | zero => exact absurd hm not_answered_failure
  | succ fuel ih =>
      by_cases hover : MayOverflow (w.forest.kind n) m value
      · by_cases hfits : value.Fits m.type?
        · exact .inl hfits
        · exact .inr ⟨n, hf.mem_descendants_iff.mpr .refl, m, value, ⟨_, hm⟩, hvalue, hfits, hover⟩
      · -- what a part has come to fits, or the step is at or below the part
        have hpart {t : Title} {part : Meaning} {v : ConstantValue}
            (hpart : Answered w (resolveChild (answersUpTo fuel) n t scopes) part)
            (hv : HasValue w part v) :
            v.Fits part.type? ∨ ∃ c ∈ w.forest.descendants n, Overflows w scopes c := by
          obtain ⟨c, hc, hpart⟩ := answered_resolveChild hpart hv
          refine (ih hpart hv).imp_right ?_
          rintro ⟨d, hd, hoverflows⟩
          exact ⟨d, hf.mem_descendants_of_child hc hd, hoverflows⟩
        replace hm := answered_forest hm
        unfold MayOverflow at hover
        split at hover
        case h_1 literal hkind =>
          rw [hkind] at hm
          obtain rfl := answered_pure hm
          obtain rfl := hasValue_constant hvalue
          refine .inl (literal_fits literal.value fun i suffix hliteral => ⟨?_, ?_⟩)
          · exact not_not.mp fun hsuffix => hover ⟨i, suffix, hliteral, hsuffix⟩
          · exact hwords n i suffix literal.spelling (by rw [hkind, ← hliteral])
        case h_2 hkind | h_3 hkind | h_4 hkind =>
          rw [hkind] at hm
          exact hpart hm hvalue
        case h_5 hkind =>
          rw [hkind] at hm
          obtain ⟨t, hm⟩ := answered_resolveConditional hm hvalue
          exact hpart hm hvalue
        case h_6 op hkind =>
          rw [hkind] at hm
          obtain ⟨operand, a, hoperand, ha, hresult, htype⟩ := answered_resolveUnary hm hvalue
          rw [htype] at hover ⊢
          exact (hpart hoperand ⟨_, ha⟩).imp_left fun hfits =>
            Folding.unary?_fits hfits hresult hover
        case h_7 op hkind =>
          rw [hkind] at hm
          obtain ⟨left, right, a, b, hleft, hright, ha, hb, hresult, htype⟩ :=
            answered_resolveBinary hm hvalue
          rw [htype] at hover ⊢
          rcases hpart hleft ⟨_, ha⟩ with hleft | hbelow
          · exact (hpart hright ⟨_, hb⟩).imp_left fun hright =>
              Folding.binary?_fits hleft hright hresult hover
          · exact .inr hbelow
        case h_8 => exact absurd trivial hover

theorem meaningOf_literal {f : Forest} (caseSensitive : Bool) {literal : Literal}
    (hkind : f.kind n = .primitiveExpression literal) (memory : Memory) :
    ∃ memory', meaningOf n ⟨f, caseSensitive⟩ memory = some (.constant (.ofLiteral literal.value)
      (match literal.value with | .null => some .null | value => value.type?.map .known), memory') := by
  have hmeaning (fuel : Nat) (scopes : List Scope) : Settles ⟨f, caseSensitive⟩ memory.active
      ((answersUpTo (fuel + 1)).expression n scopes) (· = .constant (.ofLiteral literal.value)
        (match literal.value with | .null => some .null | value => value.type?.map .known)) := by
    refine .forest ?_
    rw [hkind]
    exact .pure rfl
  obtain ⟨m, memory', hrun, rfl⟩ := exists_meaningOf fun fuel scopes _ => hmeaning fuel scopes
  exact ⟨memory', hrun⟩

/-- In a forest whose links agree and whose integer literals have 64 bits, a constant of a built-in
type lies in the range of the type, unless it can be traced to a step at or below it that leaves the
range of its own type: a literal with a suffix, or an expression that takes its value from elsewhere, as
names and casts do; a negation, or a complement under a type that is not signed; a sum, a difference, a
product, a shift to the left or a choice between operands; a division, a remainder, an alternative of
bits or their exclusive one that is negative under the type of the unsigned integers of 64 bits; or the
quotient of the least integer by -1.  An integer without a suffix has the first of four types that
holds it. -/
theorem constants_fit_unless_overflow {f : Forest} (hf : f.WellLinked) (hwords : HasWords f)
    (caseSensitive : Bool) (n : NodeId) :
    (∀ memory memory' v t, meaningOf n ⟨f, caseSensitive⟩ memory =
      some (.constant (.integer v) (some (.known t)), memory') →
      t.Holds v ∨ ∃ scopes, Answered ⟨f, caseSensitive⟩ (scopesAt n) scopes ∧
        ∃ c ∈ f.descendants n, Overflows ⟨f, caseSensitive⟩ scopes c) ∧
    ∀ i spelling, f.kind n = .primitiveExpression ⟨.integer i .none, spelling⟩ →
      ∀ memory, ∃ t memory', meaningOf n ⟨f, caseSensitive⟩ memory =
        some (.constant (.integer i) (some (.known t)), memory') ∧
        [KnownType.int32, .uint32, .int64, .uint64].find? (fun t => t.Holds i) = some t := by
  constructor
  · intro memory memory' v t hrun
    obtain ⟨scopes, hscopes, hm⟩ := answered_bind (answered_forest ⟨memory, memory', hrun⟩)
    have hvalue : HasValue ⟨f, caseSensitive⟩ (.constant (.integer v) (some (.known t))) (.integer v) :=
      ⟨1, memory, memory, rfl⟩
    rcases fits_or_overflows (w := ⟨f, caseSensitive⟩) hf hwords hm hvalue with hfits | hbelow
    · obtain ⟨t', ht', hholds⟩ := hfits v rfl
      cases ht'
      exact .inl hholds
    · exact .inr ⟨scopes, hscopes, hbelow⟩
  · intro i spelling hkind memory
    obtain ⟨memory', hrun⟩ := meaningOf_literal caseSensitive hkind memory
    have htype := Folding.type?_integer (hwords n i .none spelling hkind)
    obtain ⟨t, ht⟩ : ∃ t, (LiteralValue.integer i .none).type? = some t := ⟨_, rfl⟩
    refine ⟨t, memory', ?_, htype.symm.trans ht⟩
    rw [hrun]
    dsimp only
    rw [ht]
    rfl

/-- The number `-2147483648`. -/
def negatedLiteral : Forest :=
  Forest.performAll {} [.allocate (.unaryOperatorExpression .minus) {},
    .allocate (.primitiveExpression ⟨.integer 2147483648 .none, none⟩) {},
    .append 0 .expression 1]

/-- Its operand is an unsigned integer of 32 bits, and the negative number keeps the type. -/
theorem meaningOf_negatedLiteral : meaningOf 0 ⟨negatedLiteral, true⟩ {} =
    some (.constant (.integer (-2147483648)) (some (.known .uint32)), {}) := rfl

theorem negatedLiteral_unfit :
    negatedLiteral.WellLinked ∧ KnownType.uint32.isIntegral = true ∧
    meaningOf 0 ⟨negatedLiteral, true⟩ {} =
      some (.constant (.integer (-2147483648)) (some (.known .uint32)), {}) ∧
    ¬ KnownType.uint32.Holds (-2147483648) :=
  ⟨Forest.WellLinked.empty.performAll _, rfl, meaningOf_negatedLiteral, by decide⟩

/-- The negation is the step that overflows; the literal fits. -/
theorem constants_fit_unless_overflow_negatedLiteral :
    negatedLiteral.WellLinked ∧ HasWords negatedLiteral ∧
    (∃ scopes, ∃ c ∈ negatedLiteral.descendants 0, Overflows ⟨negatedLiteral, true⟩ scopes c) ∧
    ∃ memory', meaningOf 1 ⟨negatedLiteral, true⟩ {} =
      some (.constant (.integer 2147483648) (some (.known .uint32)), memory') := by
  have hf : negatedLiteral.WellLinked := Forest.WellLinked.empty.performAll _
  have hwords : HasWords negatedLiteral := by
    intro n i suffix spelling hkind
    match n with
    | 0 => cases hkind
    | 1 =>
      cases hkind
      decide
    | n + 2 => cases hkind
  obtain ⟨hfits, -⟩ := constants_fit_unless_overflow hf hwords true 0
  obtain ⟨scopes, -, hoverflows⟩ := (hfits {} {} _ _ meaningOf_negatedLiteral).resolve_left (by decide)
  obtain ⟨t, memory', hrun, hfirst⟩ := (constants_fit_unless_overflow hf hwords true 1).2 _ none rfl {}
  obtain rfl : t = .uint32 := Option.some.inj (hfirst.symm.trans (by decide))
  exact ⟨hf, hwords, ⟨scopes, hoverflows⟩, memory', hrun⟩

end Semantics

end DualSyntax
