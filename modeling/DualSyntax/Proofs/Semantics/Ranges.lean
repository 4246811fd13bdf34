import DualSyntax.Proofs.Semantics.Arithmetic

/-!
# Ranges of built-in types

Constants are computed with 128 bits, and their types separately, from the types of the operands.  A
constant fits its type if the type is one of numbers and its range, if it has one, holds the number.
The operators on integers are sorted here by what they do to that: `MayOverflow` says of which of
them the result may not fit though the operands do, and `binary?_fits` that it does fit otherwise.
-/

namespace DualSyntax

/-! ## Numbers and their types -/

namespace KnownType

/-- The least and the greatest integer of a type of whole numbers; characters count by their codes. -/
def range? : KnownType → Option (Int × Int)
  | sbyte => some (-2 ^ 7, 2 ^ 7 - 1)
  | byte => some (0, 2 ^ 8 - 1)
  | int16 => some (-2 ^ 15, 2 ^ 15 - 1)
  | uint16 => some (0, 2 ^ 16 - 1)
  | int32 => some (-2 ^ 31, 2 ^ 31 - 1)
  | uint32 => some (0, 2 ^ 32 - 1)
  | int64 => some (-2 ^ 63, 2 ^ 63 - 1)
  | uint64 => some (0, 2 ^ 64 - 1)
  | char => some (0, 0x10FFFF)
  | _ => none

/-- Whether a type is one of numbers and, if it has a range, an integer lies in it. -/
def Holds (t : KnownType) (i : Int) : Prop :=
  t.isNumeric = true ∧ ∀ r ∈ t.range?, r.1 ≤ i ∧ i ≤ r.2

instance (t : KnownType) (i : Int) : Decidable (t.Holds i) := inferInstanceAs (Decidable (_ ∧ _))

end KnownType

def ConstantValue.Fits (value : ConstantValue) (type : Option TypeRef) : Prop :=
  ∀ i, Folding.Numeral.of? value = some (.integer i) → ∃ t, type = some (.known t) ∧ t.Holds i

namespace Folding

open Exact

variable {x y i : Int} {s t p : KnownType}

/-! ## The type in which an operator works -/

theorem promote?_isNumeric (hs : s.isNumeric = true) (ht : t.isNumeric = true) :
    ∃ p, promote? s t = some p ∧ p.isNumeric = true := by
  cases s <;> cases hs <;> cases t <;> cases ht <;> exact ⟨_, rfl, rfl⟩

theorem promote?_comm (s t : KnownType) : promote? s t = promote? t s := by
  cases s <;> cases t <;> rfl

/-- It holds the left operand, but for a negative one if it is that of the unsigned integers of 64
bits. -/
theorem holds_promote? (h : promote? s t = some p) (hx : s.Holds x) :
    p.Holds x ∨ p = .uint64 ∧ -2 ^ 63 ≤ x ∧ x < 0 := by
  have hnumeric : p.isNumeric = true := by
    cases s <;> cases t <;> cases h <;> rfl
  have hrange : ∀ r ∈ p.range?, ∃ q ∈ s.range?, q.2 ≤ r.2 ∧
      (r.1 ≤ q.1 ∨ p = .uint64 ∧ r.1 = 0 ∧ -2 ^ 63 ≤ q.1) := by
    intro r hr
    cases s <;> cases t <;> cases h <;> cases hr <;> exact ⟨_, rfl, by decide⟩
  cases hr : p.range? with
  | none => exact .inl ⟨hnumeric, by simp [hr]⟩
  | some r =>
      obtain ⟨q, hq, hgreatest, hleast⟩ := hrange r hr
      obtain ⟨hxleast, hxgreatest⟩ := hx.2 q hq
      by_cases hin : r.1 ≤ x
      · refine .inl ⟨hnumeric, fun r' hr' => ?_⟩
        obtain rfl : r = r' := Option.some.inj (hr.symm.trans hr')
        exact ⟨hin, Int.le_trans hxgreatest hgreatest⟩
      · obtain ⟨rfl, hzero, hleast⟩ := hleast.resolve_left fun h => hin (Int.le_trans h hxleast)
        exact .inr ⟨rfl, Int.le_trans hleast hxleast, by omega⟩

theorem promote?_uint64 (h : promote? s t = some .uint64) : s = .uint64 ∨ t = .uint64 := by
  cases s <;> cases t <;> cases h <;> decide

theorem range?_promote? (h : promote? s t = some p) (r : Int × Int) (hr : p.range? = some r) :
    r = (-2 ^ 31, 2 ^ 31 - 1) ∨ r = (-2 ^ 63, 2 ^ 63 - 1) ∨ r = (0, 2 ^ 32 - 1) ∨
      p = .uint64 := by
  cases s <;> cases t <;> cases h <;> cases hr <;> simp

/-! ## Operators that keep to the range of their operands -/

/-- Operators whose results have no more bits than the operands, but for one quotient. -/
def keepsBits : BinaryOperator → Bool
  | .divide | .integerDivide | .modulus | .bitwiseAnd | .bitwiseOr | .exclusiveOr | .shiftRight => true
  | _ => false

/-- An integer that is not larger than another one has no more bits, unless one is the opposite of the
other. -/
theorem bounded_of_natAbs_le {k : Nat} (h : i.natAbs ≤ x.natAbs) (hx : -2 ^ k ≤ x ∧ x < 2 ^ k) :
    -2 ^ k ≤ i ∧ (i < 2 ^ k ∨ x = -2 ^ k ∧ i = 2 ^ k) := by
  omega

theorem keepsBits_bounded {op : BinaryOperator} (hop : keepsBits op = true) {k : Nat}
    (hx : -2 ^ k ≤ x ∧ x < 2 ^ k) (hy : -2 ^ k ≤ y ∧ y < 2 ^ k)
    (hi : Exact.binary? op x y = some i) :
    -2 ^ k ≤ i ∧ (i < 2 ^ k ∨ (op = .divide ∨ op = .integerDivide) ∧ x = -2 ^ k ∧ i = 2 ^ k) := by
  have hpositive : (0 : Int) < 2 ^ k := Int.pow_pos (by decide)
  have hbitwise {v : Int} (hv : -2 ^ k ≤ v ∧ v < 2 ^ k) (hi : some v = some i) :
      -2 ^ k ≤ i ∧ i < 2 ^ k := Option.some.inj hi ▸ hv
  cases op <;> cases hop
  case divide | integerDivide =>
    obtain ⟨-, hquotient⟩ := Option.ite_none_left_eq_some.mp hi
    obtain rfl := Option.some.inj hquotient
    have hbounded := bounded_of_natAbs_le (Int.natAbs_tdiv_le_natAbs x y) hx
    simpa using hbounded
  case modulus =>
    obtain ⟨-, hremainder⟩ := Option.ite_none_left_eq_some.mp hi
    obtain rfl := Option.some.inj hremainder
    obtain ⟨habs, -, hsign⟩ := tmod_bounds x y
    have hbounded := bounded_of_natAbs_le habs hx
    omega
  case bitwiseAnd =>
    exact (hbitwise (signed_bitwise Int.testBit_land hx hy) hi).imp_right .inl
  case bitwiseOr =>
    exact (hbitwise (signed_bitwise Int.testBit_lor hx hy) hi).imp_right .inl
  case exclusiveOr =>
    exact (hbitwise (signed_bitwise Int.testBit_lxor hx hy) hi).imp_right .inl
  case shiftRight =>
    obtain ⟨-, hfloor⟩ := Option.ite_none_right_eq_some.mp hi
    obtain rfl := Option.some.inj hfloor
    obtain ⟨habs, -, hsign⟩ := fdiv_pow_bounds x y.toNat
    have hbounded := bounded_of_natAbs_le habs hx
    omega

theorem keepsBits_nonneg {op : BinaryOperator} (hop : keepsBits op = true) (hx : 0 ≤ x)
    (hy : 0 ≤ y) (hi : Exact.binary? op x y = some i) : 0 ≤ i := by
  obtain ⟨m, rfl⟩ := Int.eq_ofNat_of_zero_le hx
  obtain ⟨n, rfl⟩ := Int.eq_ofNat_of_zero_le hy
  cases op <;> cases hop
  case divide | integerDivide =>
    obtain ⟨-, hquotient⟩ := Option.ite_none_left_eq_some.mp hi
    exact Option.some.inj hquotient ▸ Int.tdiv_nonneg hx hy
  case modulus =>
    obtain ⟨-, hremainder⟩ := Option.ite_none_left_eq_some.mp hi
    exact Option.some.inj hremainder ▸ (tmod_bounds _ _).2.1 hx
  case bitwiseAnd | bitwiseOr | exclusiveOr =>
    exact Option.some.inj hi ▸ Int.natCast_nonneg _
  case shiftRight =>
    obtain ⟨-, hfloor⟩ := Option.ite_none_right_eq_some.mp hi
    exact Option.some.inj hfloor ▸ (fdiv_pow_bounds _ _).2.1 hx

theorem land_nonneg (h : 0 ≤ x ∨ 0 ≤ y) : 0 ≤ x.land y := by
  cases x with
  | ofNat m => cases y <;> exact Int.natCast_nonneg _
  | negSucc m =>
      cases y with
      | ofNat n => exact Int.natCast_nonneg _
      | negSucc n => exact absurd h (by simp)

/-! ## Results and their types -/

/-- A negative number under the type of the unsigned integers of 64 bits. -/
def IsNegativeUnsigned (type : Option TypeRef) (value : ConstantValue) : Prop :=
  type = some (.known .uint64) ∧ ∃ i < 0, value = .integer i

def IsLeastNegated (type : Option TypeRef) (value : ConstantValue) : Prop :=
  ∃ t r, type = some (.known t) ∧ t.range? = some r ∧ value = .integer (-r.1)

/-- Whether the result of an operator may not fit its type though the operands fit theirs. -/
def MayOverflow (op : BinaryOperator) (type : Option TypeRef) (value : ConstantValue) : Prop :=
  match op with
  | .add | .subtract | .multiply | .shiftLeft | .nullCoalescing => True
  | .divide | .integerDivide => IsNegativeUnsigned type value ∨ IsLeastNegated type value
  | .modulus | .bitwiseOr | .exclusiveOr => IsNegativeUnsigned type value
  | _ => False

theorem integers_of_numbers? {op : BinaryOperator} {a b : Numeral} {value : ConstantValue}
    (h : numbers? op a b = some value) (hi : Numeral.of? value = some (.integer i)) :
    ∃ x y, a = .integer x ∧ b = .integer y ∧ integers? op x y = some i ∧ value = .integer i := by
  -- comparisons give truth values, powers and operators on reals give reals
  have hboolean (holds : Ordering → Bool) :
      (a.compare? b).map (fun o => ConstantValue.boolean (holds o)) ≠ some value := by
    intro hvalue
    obtain ⟨o, -, rfl⟩ := Option.map_eq_some_iff.mp hvalue
    cases hi
  unfold numbers? at h
  split at h
  case h_7 =>
    cases h
    cases hi
  case h_8 =>
    split at h
    · rename_i x y
      obtain ⟨v, hv, rfl⟩ := Option.map_eq_some_iff.mp h
      cases hi
      exact ⟨x, y, rfl, rfl, hv, rfl⟩
    · obtain ⟨v, -, rfl⟩ := Option.map_eq_some_iff.mp h
      cases hi
  all_goals exact absurd h (hboolean _)

/-- An operator gives a whole number only for whole numbers, unless it chooses one of its operands. -/
theorem integers_of_binary? {op : BinaryOperator} {a b value : ConstantValue}
    (hop : op ≠ .nullCoalescing) (h : binary? op a b = some value)
    (hi : Numeral.of? value = some (.integer i)) :
    ∃ x y, Numeral.of? a = some (.integer x) ∧ Numeral.of? b = some (.integer y) ∧
      integers? op x y = some i ∧ value = .integer i := by
  unfold binary? at h
  split at h
  case h_1 | h_2 => exact absurd rfl hop
  case h_9 =>
    obtain ⟨v, -, rfl⟩ := Option.map_eq_some_iff.mp h
    cases hi
  case h_14 =>
    obtain ⟨x, hx, h⟩ := Option.bind_eq_some_iff.mp h
    obtain ⟨y, hy, h⟩ := Option.bind_eq_some_iff.mp h
    obtain ⟨x, y, rfl, rfl, hv, hvalue⟩ := integers_of_numbers? h hi
    exact ⟨x, y, hx, hy, hv, hvalue⟩
  -- all others give texts or truth values
  all_goals
    cases h
    try cases hi

theorem keepsBits_signed {op : BinaryOperator} (hop : keepsBits op = true) {k : Nat}
    (hx : -2 ^ k ≤ x ∧ x ≤ 2 ^ k - 1) (hy : -2 ^ k ≤ y ∧ y ≤ 2 ^ k - 1)
    (hi : Exact.binary? op x y = some i)
    (hleast : op = .divide ∨ op = .integerDivide → i ≠ - -2 ^ k) : -2 ^ k ≤ i ∧ i ≤ 2 ^ k - 1 := by
  obtain ⟨hlow, hhigh | ⟨hdivision, -, rfl⟩⟩ := keepsBits_bounded hop (k := k) (by omega) (by omega) hi
  · omega
  · exact absurd (Int.neg_neg _).symm (hleast hdivision)

theorem keepsBits_unsigned {op : BinaryOperator} (hop : keepsBits op = true) {k : Nat}
    (hx : -2 ^ k < x ∧ x ≤ 2 ^ k - 1) (hy : -2 ^ k < y ∧ y ≤ 2 ^ k - 1)
    (hi : Exact.binary? op x y = some i) (hnonneg : 0 ≤ i) : 0 ≤ i ∧ i ≤ 2 ^ k - 1 := by
  have hbounded := keepsBits_bounded hop (k := k) (by omega) (by omega) hi
  omega

/-- Operands whose type has a range are words. -/
theorem word_of_promote? (hp : promote? s t = some p) {r : Int × Int} (hr : p.range? = some r)
    (hx : s.Holds x) : -2 ^ 63 ≤ x ∧ x < 2 ^ 64 := by
  rcases holds_promote? hp hx with hx | ⟨-, hx⟩
  · have hx := hx.2 r hr
    rcases range?_promote? hp r hr with rfl | rfl | rfl | rfl
    case inr.inr.inr => cases hr; omega
    all_goals omega
  · omega

/-- Among unsigned integers of 64 bits the common bits and the shift to the right are not negative: one
of the operands, which for a shift is the left one, is not. -/
theorem nonneg_of_promote?_uint64 {op : BinaryOperator} (hp : promote? s t = some .uint64)
    (hx : s.Holds x) (hy : t.Holds y) (hi : Exact.binary? op x y = some i)
    (hcount : op = .shiftRight → t = .int32) (hop : op = .bitwiseAnd ∨ op = .shiftRight) : 0 ≤ i := by
  rcases hop with rfl | rfl
  · obtain rfl := Option.some.inj hi
    refine land_nonneg ?_
    rcases promote?_uint64 hp with rfl | rfl
    · exact .inl (hx.2 _ rfl).1
    · exact .inr (hy.2 _ rfl).1
  · obtain rfl := hcount rfl
    obtain ⟨-, hfloor⟩ := Option.ite_none_right_eq_some.mp hi
    obtain rfl : s = .uint64 := (promote?_uint64 hp).resolve_right (by decide)
    exact Option.some.inj hfloor ▸ (fdiv_pow_bounds _ _).2.1 (hx.2 _ rfl).1

/-- Operators that keep bits give results that the type holds in which they work, unless these are
negative under an unsigned type or the quotient of the least integer by -1. -/
theorem holds_of_keepsBits {op : BinaryOperator} (hop : keepsBits op = true)
    (hp : promote? s t = some p) (hx : s.Holds x) (hy : t.Holds y) (hi : integers? op x y = some i)
    (hcount : op = .shiftRight → t = .int32)
    (hunsigned : op ≠ .bitwiseAnd → op ≠ .shiftRight → p = .uint64 → 0 ≤ i)
    (hleast : op = .divide ∨ op = .integerDivide → ∀ r ∈ p.range?, i ≠ -r.1) : p.Holds i := by
  have hp' : promote? t s = some p := (promote?_comm t s).trans hp
  obtain ⟨q, hq, hnumeric⟩ := promote?_isNumeric hx.1 hy.1
  obtain rfl : q = p := Option.some.inj (hq.symm.trans hp)
  refine ⟨hnumeric, fun r hr => ?_⟩
  have hwordx := word_of_promote? hp hr hx
  have hwordy := word_of_promote? hp' hr hy
  have hexact : Exact.binary? op x y = some i := by
    rw [← (integers?_exact op (by unfold InRange; omega) (by unfold InRange; omega)).1, hi]
  by_cases hq64 : q = .uint64
  · subst hq64
    cases hr
    refine keepsBits_unsigned hop (by omega) (by omega) hexact ?_
    by_cases hsafe : op = .bitwiseAnd ∨ op = .shiftRight
    · exact nonneg_of_promote?_uint64 hp hx hy hexact hcount hsafe
    · exact hunsigned (fun h => hsafe (.inl h)) (fun h => hsafe (.inr h)) rfl
  · -- the type holds both operands
    have hx := ((holds_promote? hp hx).resolve_right fun h => hq64 h.1).2 r hr
    have hy := ((holds_promote? hp' hy).resolve_right fun h => hq64 h.1).2 r hr
    rcases range?_promote? hp r hr with rfl | rfl | rfl | h
    · exact keepsBits_signed hop hx hy hexact fun h => hleast h _ hr
    · exact keepsBits_signed hop hx hy hexact fun h => hleast h _ hr
    · have hnonneg := keepsBits_nonneg hop hx.1 hy.1 hexact
      dsimp only at hx hy
      exact keepsBits_unsigned hop (by omega) (by omega) hexact hnonneg
    · exact absurd h hq64

theorem binaryType?_of_keepsBits {op : BinaryOperator} (hop : keepsBits op = true)
    (hshift : op ≠ .shiftRight) (hs : s.isNumeric = true) (t : KnownType) :
    binaryType? op (some (.known s)) (some (.known t)) = (promote? s t).map .known := by
  have hboolean : (s == .boolean) = false := by
    cases s <;> first | rfl | cases hs
  cases op <;> cases hop
  case shiftRight => exact absurd rfl hshift
  all_goals simp [binaryType?, knownType?, hboolean]

theorem exists_promote?_of_keepsBits {op : BinaryOperator} (hop : keepsBits op = true)
    (hx : s.Holds x) (hy : t.Holds y) (hi : integers? op x y = some i) :
    ∃ p t', binaryType? op (some (.known s)) (some (.known t)) = some (.known p) ∧
      promote? s t' = some p ∧ t'.Holds y ∧ (op = .shiftRight → t' = .int32) := by
  by_cases hshift : op = .shiftRight
  · subst hshift
    -- the count of places is one of 32 bits, whatever its type
    obtain ⟨hplaces, -⟩ := Option.ite_none_right_eq_some.mp hi
    have hcount : KnownType.int32.Holds y := by
      refine ⟨rfl, fun r hr => ?_⟩
      cases hr
      omega
    obtain ⟨p, hp, -⟩ := promote?_isNumeric hx.1 hcount.1
    exact ⟨p, .int32, congrArg (Option.map TypeRef.known) hp, hp, hcount, fun _ => rfl⟩
  · obtain ⟨p, hp, -⟩ := promote?_isNumeric hx.1 hy.1
    refine ⟨p, t, ?_, hp, hy, fun h => absurd h hshift⟩
    rw [binaryType?_of_keepsBits hop hshift hx.1, hp, Option.map_some]

theorem mayOverflow_of_negative {op : BinaryOperator} (hop : keepsBits op = true)
    (hand : op ≠ .bitwiseAnd) (hshift : op ≠ .shiftRight) {type : Option TypeRef}
    {value : ConstantValue} (h : IsNegativeUnsigned type value) : MayOverflow op type value := by
  cases op <;> cases hop
  case bitwiseAnd => exact absurd rfl hand
  case shiftRight => exact absurd rfl hshift
  case divide | integerDivide => exact .inl h
  all_goals exact h

/-- The result of an operator fits its type if the operands fit theirs, unless the operator is one that
may overflow. -/
theorem binary?_fits {op : BinaryOperator} {a b value : ConstantValue} {left right : Option TypeRef}
    (ha : a.Fits left) (hb : b.Fits right) (h : binary? op a b = some value)
    (hover : ¬ MayOverflow op (some ((binaryType? op left right).getD (typeOf value))) value) :
    value.Fits (some ((binaryType? op left right).getD (typeOf value))) := by
  intro i hi
  have hchoice : op ≠ .nullCoalescing := by
    rintro rfl
    exact hover trivial
  obtain ⟨x, y, hx, hy, hresult, rfl⟩ := integers_of_binary? hchoice h hi
  obtain ⟨s, rfl, hx⟩ := ha x hx
  obtain ⟨t, rfl, hy⟩ := hb y hy
  have hop : keepsBits op = true := by
    cases op <;> first | rfl | exact absurd trivial hover | cases hresult
  obtain ⟨p, t', htype, hp, hy', hcount⟩ := exists_promote?_of_keepsBits hop hx hy hresult
  rw [htype, Option.getD_some] at hover ⊢
  refine ⟨p, rfl, holds_of_keepsBits hop hp hx hy' hresult hcount (fun hand hshift h64 => ?_)
    fun hdivision r hr => ?_⟩
  · subst h64
    refine Int.not_lt.mp fun hneg => hover ?_
    have hnegative : IsNegativeUnsigned (some (.known .uint64)) (.integer i) := ⟨rfl, i, hneg, rfl⟩
    exact mayOverflow_of_negative hop hand hshift hnegative
  · rintro rfl
    have hleast : IsLeastNegated (some (.known p)) (.integer (-r.1)) := ⟨p, r, rfl, hr, rfl⟩
    rcases hdivision with rfl | rfl <;> exact hover (.inr hleast)

/-- Whether the result of a unary operator may not fit the type of the operand though that does. -/
def MayOverflowUnary (op : UnaryOperator) (type : Option TypeRef) : Prop :=
  match op with
  | .minus => True
  | .not | .bitNot => ¬ ∃ t, type = some (.known t) ∧ isSigned t = true
  | _ => False

theorem holds_complement (ht : isSigned t = true) (h : t.Holds x) : t.Holds (-x - 1) := by
  refine ⟨h.1, fun r hr => ?_⟩
  have hx := h.2 r hr
  cases t <;> cases ht <;> cases hr <;> dsimp only at hx ⊢ <;> omega

theorem unary?_fits {op : UnaryOperator} {a value : ConstantValue} {type : Option TypeRef}
    (ha : a.Fits type) (h : unary? op a = some value) (hover : ¬ MayOverflowUnary op type) :
    value.Fits type := by
  have hcomplement {x : Int} (hx : (ConstantValue.integer x).Fits type)
      (hsigned : ¬ ¬ ∃ t, type = some (.known t) ∧ isSigned t = true) :
      (ConstantValue.integer (-x - 1)).Fits type := by
    intro i hi
    cases hi
    obtain ⟨t, rfl, ht⟩ := not_not.mp hsigned
    obtain ⟨t', ht', hholds⟩ := hx x rfl
    cases ht'
    exact ⟨t, rfl, holds_complement ht hholds⟩
  unfold unary? at h
  split at h
  case h_1 | h_2 =>
    cases h
    exact ha
  case h_3 => exact absurd trivial hover
  case h_6 | h_7 =>
    cases h
    exact hcomplement ha hover
  -- reals and truth values are no whole numbers
  all_goals
    cases h
    try exact fun i hi => nomatch hi

/-! ## Literals -/

/-- Of a type whose range reaches from zero or below up to a greatest number, this one decides whether
it holds a natural number. -/
theorem holds_natCast_iff {r : Int × Int} (hr : t.range? = some r) (hleast : r.1 ≤ 0) (n : Nat) :
    t.Holds n ↔ (n : Int) ≤ r.2 := by
  have hnumeric : t.isNumeric = true := by
    cases t <;> first | rfl | cases hr
  refine ⟨fun h => (h.2 r hr).2, fun h => ⟨hnumeric, fun r' hr' => ?_⟩⟩
  obtain rfl : r = r' := Option.some.inj (hr.symm.trans hr')
  exact ⟨by omega, h⟩

/-- The type of an integer without a suffix is the first of four that holds it. -/
theorem type?_integer {n : Nat} (hn : n < 2 ^ 64) :
    (LiteralValue.integer n .none).type? =
      [KnownType.int32, .uint32, .int64, .uint64].find? fun t => t.Holds n := by
  have h32 := holds_natCast_iff (t := .int32) rfl (by decide) n
  have hu32 := holds_natCast_iff (t := .uint32) rfl (by decide) n
  have h64 := holds_natCast_iff (t := .int64) rfl (by decide) n
  have hu64 := holds_natCast_iff (t := .uint64) rfl (by decide) n
  have hpow : Nat.pow 2 31 = 2 ^ 31 ∧ Nat.pow 2 32 = 2 ^ 32 ∧ Nat.pow 2 63 = 2 ^ 63 := by decide
  simp only [LiteralValue.type?, List.find?, h32, hu32, h64, hu64, hpow]
  split
  · rw [decide_eq_true (by omega)]
  · rw [decide_eq_false (by omega)]
    split
    · rw [decide_eq_true (by omega)]
    · rw [decide_eq_false (by omega)]
      split
      · rw [decide_eq_true (by omega)]
      · rw [decide_eq_false (by omega), decide_eq_true (by omega)]

theorem ofLiteral_fits {value : LiteralValue}
    (hinteger : ∀ n suffix, value = .integer n suffix → suffix = .none ∧ n < 2 ^ 64) :
    (ConstantValue.ofLiteral value).Fits (value.type?.map .known) := by
  intro i hi
  cases value
  case integer n suffix =>
    obtain ⟨rfl, hn⟩ := hinteger n suffix rfl
    cases hi
    have htype := type?_integer hn
    obtain ⟨t, ht⟩ : ∃ t, (LiteralValue.integer n .none).type? = some t := ⟨_, rfl⟩
    have hholds := List.find?_some (htype.symm.trans ht)
    exact ⟨t, by rw [ht, Option.map_some], of_decide_eq_true hholds⟩
  case char c =>
    cases hi
    have hcode : c.toNat < 0xd800 ∨ 0xdfff < c.toNat ∧ c.toNat < 0x110000 := c.valid
    refine ⟨.char, rfl, rfl, fun r hr => ?_⟩
    cases hr
    dsimp only
    omega
  all_goals cases hi

end Folding

end DualSyntax
