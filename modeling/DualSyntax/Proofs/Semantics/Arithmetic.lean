import DualSyntax.Semantics.Constant
import Mathlib.Data.Int.Bitwise
import Mathlib.Tactic.Ring

/-!
# Arithmetic of constants

The operators on integer constants, measured by the arithmetic of all integers.  `Exact` says what a
result is by the mathematical operation and when there is none; on integers of 128 bits the operators
give just that, and their results are again such integers.
-/

namespace DualSyntax

/-! ## Exact results -/

namespace Exact

/-- The integers of 128 bits. -/
def InRange (x : Int) : Prop := -2 ^ 127 ≤ x ∧ x < 2 ^ 127

instance (x : Int) : Decidable (InRange x) := inferInstanceAs (Decidable (_ ∧ _))

/-- An integer, if it has 128 bits. -/
def checked? (x : Int) : Option Int := if InRange x then some x else none

/-- The integer of 128 bits that differs from another one by a multiple of `2 ^ 128`. -/
def wrapped (x : Int) : Int := (x + 2 ^ 127) % 2 ^ 128 - 2 ^ 127

/-- The result of an operator on an integer. -/
def unary? (op : UnaryOperator) (x : Int) : Option Int :=
  match op with
  | .plus => some x
  | .minus => checked? (-x)
  | .not | .bitNot => some (-x - 1)
  | _ => none

/-- Whether a division has no result: the quotient of the least integer by -1 is none of 128 bits. -/
def Undivided (x y : Int) : Prop := y = 0 ∨ (x = -2 ^ 127 ∧ y = -1)

instance (x y : Int) : Decidable (Undivided x y) := inferInstanceAs (Decidable (_ ∨ _))

/-- Whether a number of places can be shifted by. -/
def IsPlaces (y : Int) : Prop := 0 ≤ y ∧ y ≤ 127

instance (y : Int) : Decidable (IsPlaces y) := inferInstanceAs (Decidable (_ ∧ _))

/-- The result of an operator on integers.  Bitwise operators act on the two's complement, which goes
on with the sign without end. -/
def binary? (op : BinaryOperator) (x y : Int) : Option Int :=
  match op with
  | .add => checked? (x + y)
  | .subtract => checked? (x - y)
  | .multiply => checked? (x * y)
  | .divide | .integerDivide => if Undivided x y then none else some (x.tdiv y)
  | .modulus => if Undivided x y then none else some (x.tmod y)
  | .bitwiseAnd => some (Int.land x y)
  | .bitwiseOr => some (Int.lor x y)
  | .exclusiveOr => some (Int.xor x y)
  | .shiftLeft => if IsPlaces y then some (wrapped (x * 2 ^ y.toNat)) else none
  | .shiftRight => if IsPlaces y then some (x.fdiv (2 ^ y.toNat)) else none
  | _ => none

def isArithmetic : BinaryOperator → Bool
  | .add | .subtract | .multiply | .divide | .integerDivide | .modulus | .bitwiseAnd | .bitwiseOr
  | .exclusiveOr | .shiftLeft | .shiftRight => true
  | _ => false

def isComparison : BinaryOperator → Bool
  | .equality | .inEquality | .lessThan | .greaterThan | .lessThanOrEqual | .greaterThanOrEqual => true
  | _ => false

def compare (op : BinaryOperator) (x y : Int) : Bool :=
  match op with
  | .equality => x = y
  | .inEquality => x ≠ y
  | .lessThan => x < y
  | .greaterThan => x > y
  | .lessThanOrEqual => x ≤ y
  | .greaterThanOrEqual => x ≥ y
  | _ => false

end Exact

open Exact

namespace Folding

variable {x y : Int}

/-! ## Sums, products and quotients -/

theorem fit?_eq_checked? (x : Int) : fit? x = checked? x := rfl

theorem checked?_eq_none_iff : checked? x = none ↔ ¬ InRange x := by
  unfold checked?
  split <;> simp_all

theorem checked?_of_inRange (h : InRange x) : checked? x = some x := if_pos h

theorem inRange_of_mem_checked? {v : Int} (h : v ∈ checked? x) : InRange v := by
  unfold checked? at h
  split at h
  · cases h
    assumption
  · cases h

/-- A quotient has 128 bits, unless it is that of the least integer by -1. -/
theorem inRange_tdiv_iff (hx : InRange x) (hy : y ≠ 0) :
    InRange (x.tdiv y) ↔ ¬ Undivided x y := by
  unfold InRange Undivided at *
  have hone : x.tdiv 1 = x := Int.tdiv_one x
  have hneg : x.tdiv (-1) = -x := by rw [Int.tdiv_neg, Int.tdiv_one]
  by_cases h : y = 1 ∨ y = -1
  · rcases h with rfl | rfl
    · omega
    · omega
  · -- the quotient by anything else is at most half as large
    have hquotient : (x.tdiv y).natAbs ≤ x.natAbs / 2 := by
      rw [Int.natAbs_tdiv]
      exact Nat.div_le_div_left (by omega) (by omega)
    omega

theorem quotient_eq_exact (hx : InRange x) (f : Int → Int) :
    (if y = 0 then none else (fit? (x.tdiv y)).map f) =
      if Undivided x y then none else some (f (x.tdiv y)) := by
  by_cases hy : y = 0
  · rw [if_pos hy, if_pos (.inl hy)]
  · rw [if_neg hy, fit?_eq_checked?]
    by_cases hundivided : Undivided x y
    · have hnone := checked?_eq_none_iff.mpr fun h => (inRange_tdiv_iff hx hy).mp h hundivided
      rw [if_pos hundivided, hnone, Option.map_none]
    · rw [if_neg hundivided, checked?_of_inRange ((inRange_tdiv_iff hx hy).mpr hundivided),
        Option.map_some]

/-- A remainder has the sign of the dividend and is not larger. -/
theorem tmod_bounds (x y : Int) :
    (x.tmod y).natAbs ≤ x.natAbs ∧ (0 ≤ x → 0 ≤ x.tmod y) ∧ (x ≤ 0 → x.tmod y ≤ 0) := by
  refine ⟨?_, Int.tmod_nonneg y, fun h => ?_⟩
  · rw [Int.natAbs_tmod]
    exact Nat.mod_le _ _
  · have hneg : 0 ≤ (-x).tmod y := Int.tmod_nonneg y (Int.neg_nonneg_of_nonpos h)
    rw [Int.neg_tmod] at hneg
    exact Int.nonpos_of_neg_nonneg hneg

theorem inRange_tmod (hx : InRange x) : InRange (x.tmod y) := by
  have hbounds := tmod_bounds x y
  unfold InRange at *
  omega

/-! ## Bits -/

/-- Few enough digits: from some bit on there are no more. -/
theorem nat_lt_iff_testBit (k n : Nat) : n < 2 ^ k ↔ ∀ i, k ≤ i → n.testBit i = false :=
  ⟨fun hn _ hi => Nat.testBit_lt_two_pow
    (Nat.lt_of_lt_of_le hn (Nat.pow_le_pow_right Nat.two_pos hi)), Nat.lt_pow_two_of_testBit n⟩

/-- The bits of a small natural number end. -/
theorem unsigned_iff_testBit (k : Nat) :
    0 ≤ x ∧ x < 2 ^ k ↔ ∀ i, k ≤ i → x.testBit i = false := by
  cases x with
  | ofNat n =>
      have hrange : 0 ≤ Int.ofNat n ∧ Int.ofNat n < 2 ^ k ↔ n < 2 ^ k := by
        rw [Int.ofNat_eq_natCast, and_iff_right (Int.natCast_nonneg n)]
        exact_mod_cast Iff.rfl
      exact hrange.trans (nat_lt_iff_testBit k n)
  | negSucc n =>
      refine ⟨fun h => absurd h.1 (Int.not_le_of_gt (Int.negSucc_lt_zero n)), fun h => ?_⟩
      -- far out all bits of a negative number are set
      have hfar : n.testBit (k + n) = false := Nat.testBit_lt_two_pow
        (Nat.lt_of_lt_of_le Nat.lt_two_pow_self (Nat.pow_le_pow_right Nat.two_pos (by omega)))
      have hbit : (Int.negSucc n).testBit (k + n) = !n.testBit (k + n) := rfl
      rw [h (k + n) (by omega), hfar] at hbit
      cases hbit

theorem lnot_eq (x : Int) : x.lnot = -x - 1 := by
  cases x with
  | ofNat n =>
      change Int.negSucc n = -(n : Int) - 1
      omega
  | negSucc n =>
      change (n : Int) = -Int.negSucc n - 1
      omega

/-- The bits of a small integer are those of its sign in the end. -/
theorem signed_iff_testBit (k : Nat) :
    -2 ^ k ≤ x ∧ x < 2 ^ k ↔ ∃ sign, ∀ i, k ≤ i → x.testBit i = sign := by
  have hcases : -2 ^ k ≤ x ∧ x < 2 ^ k ↔
      (0 ≤ x ∧ x < 2 ^ k) ∨ (0 ≤ x.lnot ∧ x.lnot < 2 ^ k) := by
    have hpositive : (0 : Int) < 2 ^ k := Int.pow_pos (by decide)
    rw [lnot_eq]
    omega
  have hcomplement : (∀ i, k ≤ i → x.lnot.testBit i = false) ↔ ∀ i, k ≤ i → x.testBit i = true :=
    forall₂_congr fun i _ => by rw [Int.testBit_lnot, Bool.not_eq_false']
  rw [hcases, unsigned_iff_testBit, unsigned_iff_testBit, hcomplement, Bool.exists_bool]

/-- The two's complement of an integer has its bits. -/
theorem getLsbD_ofInt (w i : Nat) (x : Int) :
    (BitVec.ofInt w x).getLsbD i = (decide (i < w) && x.testBit i) := by
  cases x with
  | ofNat n => exact BitVec.getLsbD_ofNat w n i
  | negSucc n =>
      have hbit : (Int.negSucc n).testBit i = !n.testBit i := rfl
      rw [BitVec.ofInt_negSucc_eq_not_ofNat, BitVec.getLsbD_not, BitVec.getLsbD_ofNat, hbit]
      cases decide (i < w) <;> rfl

/-- An operator that works bit by bit keeps small integers small. -/
theorem signed_bitwise {g : Bool → Bool → Bool} {exact : Int → Int → Int} {k : Nat}
    (hexact : ∀ x y i, (exact x y).testBit i = g (x.testBit i) (y.testBit i))
    (hx : -2 ^ k ≤ x ∧ x < 2 ^ k) (hy : -2 ^ k ≤ y ∧ y < 2 ^ k) :
    -2 ^ k ≤ exact x y ∧ exact x y < 2 ^ k := by
  obtain ⟨sx, hsx⟩ := (signed_iff_testBit k).mp hx
  obtain ⟨sy, hsy⟩ := (signed_iff_testBit k).mp hy
  exact (signed_iff_testBit k).mpr ⟨g sx sy, fun i hi => by rw [hexact, hsx i hi, hsy i hi]⟩

theorem bitwise_eq_exact {f : BitVec 128 → BitVec 128 → BitVec 128} {g : Bool → Bool → Bool}
    {exact : Int → Int → Int}
    (hf : ∀ a b i, i < 128 → (f a b).getLsbD i = g (a.getLsbD i) (b.getLsbD i))
    (hexact : ∀ x y i, (exact x y).testBit i = g (x.testBit i) (y.testBit i))
    (hx : InRange x) (hy : InRange y) :
    InRange (exact x y) ∧ bitwise f x y = exact x y := by
  have hrange : InRange (exact x y) := signed_bitwise hexact hx hy
  have hbits : f (BitVec.ofInt 128 x) (BitVec.ofInt 128 y) = BitVec.ofInt 128 (exact x y) := by
    refine BitVec.eq_of_getLsbD_eq fun i hi => ?_
    rw [hf _ _ i hi, getLsbD_ofInt, getLsbD_ofInt, getLsbD_ofInt, hexact, decide_eq_true hi,
      Bool.true_and, Bool.true_and, Bool.true_and]
  refine ⟨hrange, ?_⟩
  rw [bitwise, hbits, BitVec.toInt_ofInt]
  unfold InRange at hrange
  exact Int.bmod_eq_of_le (by omega) (by omega)

/-! ## Shifts -/

theorem wrap_eq_wrapped (x : Int) : wrap x = wrapped x := by
  have hmod : (Nat.pow 2 128 : Nat) = 340282366920938463463374607431768211456 := rfl
  rw [wrap, wrapped, Int.bmod_def, hmod]
  split <;> omega

theorem inRange_wrapped (x : Int) : InRange (wrapped x) := by
  unfold InRange wrapped
  omega

theorem wrapped_of_inRange (h : InRange x) : wrapped x = x := by
  unfold InRange at h
  unfold wrapped
  omega

/-- A shifted integer has the sign of the integer and is not larger. -/
theorem fdiv_pow_bounds (x : Int) (n : Nat) :
    (x.fdiv (2 ^ n)).natAbs ≤ x.natAbs ∧ (0 ≤ x → 0 ≤ x.fdiv (2 ^ n)) ∧
      (x ≤ 0 → x.fdiv (2 ^ n) ≤ 0) := by
  have hpositive : (0 : Int) < 2 ^ n := Int.pow_pos (by decide)
  rw [Int.fdiv_eq_ediv_of_nonneg x (Int.le_of_lt hpositive)]
  exact ⟨Int.natAbs_ediv_le_natAbs x (2 ^ n), fun h => Int.ediv_nonneg h (Int.le_of_lt hpositive),
    fun h => Int.ediv_nonpos_of_nonpos_of_neg h hpositive⟩

theorem inRange_fdiv (hx : InRange x) (n : Nat) : InRange (x.fdiv (2 ^ n)) := by
  have hbounds := fdiv_pow_bounds x n
  unfold InRange at *
  omega

theorem ofNat_pow_two (n : Nat) : Int.ofNat (Nat.pow 2 n) = 2 ^ n := Int.natCast_pow 2 n

theorem shift?_eq_exact {f : Int → Nat → Int} {v : Int} (h : wrap (f x y.toNat) = v) :
    shift? f x y = if IsPlaces y then some v else none := by
  have hplaces : (0 ≤ y ∧ y < 128) ↔ IsPlaces y := by
    unfold IsPlaces
    omega
  rw [shift?, h]
  exact if_congr hplaces rfl rfl

/-! ## All operators -/

/-- On integers of 128 bits the operators give the exact results, which have 128 bits. -/
theorem integers?_exact (op : BinaryOperator) (hx : InRange x) (hy : InRange y) :
    integers? op x y = Exact.binary? op x y ∧ ∀ v ∈ integers? op x y, InRange v := by
  have hsome {v : Int} (hv : InRange v) : ∀ u ∈ some v, InRange u := fun u hu =>
    Option.some.inj hu ▸ hv
  have hif {c : Prop} [Decidable c] {o p : Option Int} (ho : ¬ c → ∀ v ∈ o, InRange v)
      (hp : c → ∀ v ∈ p, InRange v) : ∀ v ∈ if c then p else o, InRange v := by
    split
    · exact hp ‹_›
    · exact ho ‹_›
  have hnone : ∀ v ∈ (none : Option Int), InRange v := by rintro v ⟨⟩
  have hand := bitwise_eq_exact (fun a b i _ => BitVec.getLsbD_and) Int.testBit_land hx hy
  have hor := bitwise_eq_exact (fun a b i _ => BitVec.getLsbD_or) Int.testBit_lor hx hy
  have hxor := bitwise_eq_exact (fun a b i _ => BitVec.getLsbD_xor) Int.testBit_lxor hx hy
  cases op
  case add | subtract | multiply => exact ⟨rfl, fun v hv => inRange_of_mem_checked? hv⟩
  case divide | integerDivide =>
    have hquotient := quotient_eq_exact (y := y) hx id
    rw [Option.map_id] at hquotient
    exact ⟨hquotient, hif (fun _ v hv => inRange_of_mem_checked? hv) fun _ => hnone⟩
  case modulus =>
    have hremainder := quotient_eq_exact (y := y) hx fun _ => x.tmod y
    refine ⟨hremainder, ?_⟩
    rw [integers?, hremainder]
    exact hif (fun _ => hsome (inRange_tmod hx)) fun _ => hnone
  case bitwiseAnd => exact ⟨congrArg some hand.2, hsome (hand.2 ▸ hand.1)⟩
  case bitwiseOr => exact ⟨congrArg some hor.2, hsome (hor.2 ▸ hor.1)⟩
  case exclusiveOr => exact ⟨congrArg some hxor.2, hsome (hxor.2 ▸ hxor.1)⟩
  case shiftLeft =>
    have hshift : integers? .shiftLeft x y = Exact.binary? .shiftLeft x y := by
      rw [integers?, Exact.binary?]
      refine shift?_eq_exact ?_
      rw [ofNat_pow_two, wrap_eq_wrapped]
    refine ⟨hshift, ?_⟩
    rw [hshift]
    exact hif (fun _ => hnone) fun _ => hsome (inRange_wrapped _)
  case shiftRight =>
    have hfloor := inRange_fdiv hx y.toNat
    have hshift : integers? .shiftRight x y = Exact.binary? .shiftRight x y := by
      rw [integers?, Exact.binary?]
      refine shift?_eq_exact ?_
      have hpositive : (0 : Int) ≤ 2 ^ y.toNat := Int.le_of_lt (Int.pow_pos (by decide))
      rw [ofNat_pow_two, ← Int.fdiv_eq_ediv_of_nonneg x hpositive, wrap_eq_wrapped,
        wrapped_of_inRange hfloor]
    refine ⟨hshift, ?_⟩
    rw [hshift]
    exact hif (fun _ => hnone) fun _ => hsome hfloor
  all_goals exact ⟨rfl, hnone⟩

theorem unary?_eq_exact (op : UnaryOperator) (x : Int) :
    unary? op (.integer x) = (Exact.unary? op x).map .integer := by
  cases op <;> rfl

theorem inRange_of_mem_unary? {op : UnaryOperator} (hx : InRange x) {v : Int}
    (hv : v ∈ Exact.unary? op x) : InRange v := by
  cases op
  case plus => exact Option.some.inj hv ▸ hx
  case minus => exact inRange_of_mem_checked? hv
  case not | bitNot =>
    obtain rfl : -x - 1 = v := Option.some.inj hv
    unfold InRange at *
    omega
  all_goals cases hv

theorem numbers?_eq_compare {op : BinaryOperator} (hop : isComparison op = true) (x y : Int) :
    numbers? op (.integer x) (.integer y) = some (.boolean (Exact.compare op x y)) := by
  have hcompare : (Numeral.integer x).compare? (.integer y) = some (Ord.compare x y) := rfl
  rcases Int.lt_trichotomy x y with hlt | rfl | hgt
  · have horder : Ord.compare x y = .lt := compare_lt_iff_lt.mpr hlt
    have hne : x ≠ y := Int.ne_of_lt hlt
    cases op <;> cases hop <;>
      simp [numbers?, hcompare, horder, Exact.compare, hne, hlt, Int.le_of_lt hlt,
        Int.not_le_of_gt hlt, Int.not_lt_of_ge (Int.le_of_lt hlt)]
  · cases op <;> cases hop <;> simp [numbers?, hcompare, Exact.compare]
  · have horder : Ord.compare x y = .gt := compare_gt_iff_gt.mpr hgt
    have hne : x ≠ y := Int.ne_of_gt hgt
    cases op <;> cases hop <;>
      simp [numbers?, hcompare, horder, Exact.compare, hne, hgt, Int.le_of_lt hgt,
        Int.not_le_of_gt hgt, Int.not_lt_of_ge (Int.le_of_lt hgt)]

theorem binary?_eq_exact {op : BinaryOperator} (hop : isArithmetic op = true) (hx : InRange x)
    (hy : InRange y) :
    binary? op (.integer x) (.integer y) = (Exact.binary? op x y).map .integer := by
  rw [← (integers?_exact op hx hy).1]
  cases op <;> first | rfl | cases hop

theorem binary?_eq_compare {op : BinaryOperator} (hop : isComparison op = true) (x y : Int) :
    binary? op (.integer x) (.integer y) = some (.boolean (Exact.compare op x y)) := by
  rw [← numbers?_eq_compare hop]
  cases op <;> first | rfl | cases hop

end Folding

end DualSyntax
