import DualSyntax.Decimal.Reading
import Mathlib

/-!
# Numerals denote numbers

The double nearest to a decimal numeral is a number or infinite, so it is equal to itself.  Only the
name `nan` denotes a value that is not.
-/

namespace DualSyntax.Reading

open Float.Model UnpackedFloat

/-! ## Doubles that are numbers -/

theorem roundWithAccuracy_ne_nan (spec : Format) (sign : Sign) (m : Nat) (e : Int)
    (accuracy : Accuracy) : roundWithAccuracy spec sign m e accuracy ≠ .notANumber := by
  unfold roundWithAccuracy
  dsimp only
  split <;> nofun

/-- Whether a value is a finite number other than zero. -/
def isFinite : UnpackedFloat → Bool
  | .finite .. => true
  | _ => false

theorem mul_ne_nan (spec : Format) {x y : UnpackedFloat} (hx : x ≠ .notANumber)
    (hy : isFinite y = true) : UnpackedFloat.mul spec x y ≠ .notANumber := by
  cases y with
  | notANumber | infinity | zero => cases hy
  | finite =>
      cases x with
      | notANumber => exact absurd rfl hx
      | infinity | zero => nofun
      | finite => exact roundWithAccuracy_ne_nan _ _ _ _ _

theorem div_ne_nan (spec : Format) {x y : UnpackedFloat} (hx : x ≠ .notANumber)
    (hy : isFinite y = true) : UnpackedFloat.div spec x y ≠ .notANumber := by
  cases y with
  | notANumber | infinity | zero => cases hy
  | finite =>
      cases x with
      | notANumber => exact absurd rfl hx
      | infinity | zero => nofun
      | finite => exact roundWithAccuracy_ne_nan _ _ _ _ _

/-- The bits of a number are not those of the value that is none. -/
theorem isNaNBits_pack {spec : Format} {x : UnpackedFloat} (hx : x ≠ .notANumber) :
    isNaNBits (UnpackedFloat.pack spec x) = false := by
  cases x with
  | notANumber => exact absurd rfl hx
  | infinity s => simp [UnpackedFloat.pack, isNaNBits, packedInfinity]
  | zero s => simp [UnpackedFloat.pack, isNaNBits, packedZero]
  | finite s m e hm =>
      unfold UnpackedFloat.pack
      dsimp only
      generalize (e + spec.exponentBias + spec.mantissaBitsWithoutImplicit).toNat = n
      split
      · simp [isNaNBits, packedInfinity]
      · rename_i hsmall
        split
        · -- an exponent in range is not the greatest one
          have hexponent : BitVec.ofNat spec.exponentBits n ≠ -(BitVec.ofNat spec.exponentBits 1) := by
            rw [BitVec.neg_one_eq_allOnes]
            intro h
            have htoNat := congrArg BitVec.toNat h
            rw [BitVec.toNat_ofNat, BitVec.toNat_allOnes, Nat.mod_eq_of_lt (by omega)] at htoNat
            omega
          simp [isNaNBits, hexponent]
        · have hzero := Nat.ne_of_gt spec.he
          simp [isNaNBits, BitVec.zero_eq_neg_one_iff, hzero]

theorem unpack_pack_ne_nan {x : UnpackedFloat} (hx : x ≠ .notANumber) :
    (Float.Model.pack x).unpack ≠ .notANumber := by
  intro h
  have hbits : UnpackedFloat.pack .binary64 x = packedNaN .binary64 :=
    (unpack_eq_notANumber_iff_of_valid (Float.Model.pack x).valid).mp h
  have hpack := @isNaNBits_pack .binary64 x hx
  rw [hbits, isNaNBits_packedNaN] at hpack
  cases hpack

/-- A double made from a number is equal to itself. -/
theorem beq_self_of_pack {x : UnpackedFloat} (hx : x ≠ .notANumber) :
    (Float.ofModel (Float.Model.pack x) == Float.ofModel (Float.Model.pack x)) = true := by
  rw [Float.beq_self_iff]
  intro h
  have hnan : (Float.ofModel (Float.Model.pack x)).isNaN = true := by
    rw [Float.isNaN_eq_decide_eq_nan, h]
    simp
  exact unpack_pack_ne_nan hx (isNaN_iff.mp hnan)

/-! ## Numerals -/

theorem ofNat_ne_nan (spec : Format) (n : Nat) : UnpackedFloat.ofNat spec n ≠ .notANumber := by
  unfold UnpackedFloat.ofNat UnpackedFloat.ofInt UnpackedFloat.normalize
  split
  · exact roundWithAccuracy_ne_nan _ _ _ _ _
  · nofun
  · exact roundWithAccuracy_ne_nan _ _ _ _ _

theorem ofScientific_ne_nan (spec : Format) (m : Nat) (e : Int) :
    UnpackedFloat.ofScientific spec m e ≠ .notANumber := by
  unfold UnpackedFloat.ofScientific
  split
  · nofun
  · split
    · nofun
    · split
      · nofun
      · split
        · exact mul_ne_nan _ (by simp) rfl
        · exact div_ne_nan _ (by simp) rfl

theorem isFinite_powerOfTen : ∀ e (he : e < Float.exactlyRepresentablePowersOfTen.size),
    isFinite (Float.exactlyRepresentablePowersOfTen[e]).toModel.unpack = true := by
  decide

theorem ofScientific_beq_self (m : Nat) (negative : Bool) (e : Nat) :
    (Float.ofScientific m negative e == Float.ofScientific m negative e) = true := by
  unfold Float.ofScientific
  split
  · rename_i h
    have hm := unpack_pack_ne_nan (ofNat_ne_nan .binary64 m.toUInt64.toNat)
    have hpower := isFinite_powerOfTen e (Nat.lt_succ_of_le h.2)
    dsimp only
    split
    · exact beq_self_of_pack (div_ne_nan _ hm hpower)
    · exact beq_self_of_pack (mul_ne_nan _ hm hpower)
  · exact beq_self_of_pack (ofScientific_ne_nan _ _ _)

theorem nearest_beq_self (m : Nat) (e : Int) : (nearest m e == nearest m e) = true := by
  unfold nearest
  dsimp only
  split
  · decide
  · split
    · decide
    · exact ofScientific_beq_self _ _ _

/-- A numeral without a sign denotes a value that is equal to itself. -/
theorem unsigned?_beq_self {cs : List Char} {x : Float} (h : unsigned? cs = some x) :
    (x == x) = true := by
  unfold unsigned? at h
  dsimp only at h
  split at h
  all_goals
    split at h
    · cases h
    · obtain ⟨e, -, rfl⟩ := Option.map_eq_some_iff.mp h
      exact nearest_beq_self _ _

end DualSyntax.Reading
