import SciCalc.Proofs.Comparing

/-!
# Sums of numbers

The sum of two finite numbers is finite or, where it is too large, an infinity, and never a NaN. An
infinity stays as it is when a finite number is added to it. A difference is the sum with the
negation, so the same holds of differences.
-/

set_option autoImplicit false

namespace SciCalc.Binary64

open Float.Model UnpackedFloat

/-! ## Packing -/

/-- Rounding makes no NaN. -/
theorem round_ne_notANumber (sign : Sign) (m : Nat) (e : Int) :
    UnpackedFloat.round .binary64 sign m e ≠ .notANumber := by
  simp only [UnpackedFloat.round, roundWithAccuracy]
  split <;> simp

/-- A word whose exponent has all bits set is no NaN if its mantissa is zero. -/
theorem unpack_packComponents_ne {sign : Sign} {exponent : BitVec 11} {mantissa : BitVec 52}
    (h : exponent = -1#11 → mantissa = 0#52) :
    UnpackedFloat.unpack .binary64 (packComponents .binary64 sign exponent mantissa) ≠
      .notANumber := by
  simp only [UnpackedFloat.unpack, unpackExponent_packComponents, unpackMantissa_packComponents]
  split
  case isTrue hexponent => simp [h hexponent]
  case isFalse =>
    split
    · split <;> simp
    · simp

/-- What is packed is a NaN only if it was one. -/
theorem isNaN_pack {u : UnpackedFloat} (h : u ≠ .notANumber) :
    (Float.ofModel (Float.Model.pack u)).isNaN = false := by
  have hword : UnpackedFloat.unpack .binary64 (UnpackedFloat.pack .binary64 u) ≠ .notANumber := by
    cases u with
    | notANumber => exact absurd rfl h
    | infinity s => exact unpack_packComponents_ne fun _ => rfl
    | zero s => exact unpack_packComponents_ne fun _ => rfl
    | finite s m e hm =>
      rw [UnpackedFloat.pack]
      split
      case isTrue => exact unpack_packComponents_ne fun _ => rfl
      case isFalse hsmall =>
        split
        · -- The exponent stays below that of the infinities.
          refine unpack_packComponents_ne fun hexponent => absurd hexponent fun hexponent => ?_
          have hlast : (-1#11).toNat = 2047 := rfl
          have hbits : 2 ^ Format.binary64.exponentBits = 2048 := rfl
          have hbiased := congrArg BitVec.toNat hexponent
          rw [BitVec.toNat_ofNat, hbits, hlast] at hbiased
          rw [hbits] at hsmall
          omega
        · refine unpack_packComponents_ne fun hexponent => ?_
          cases hexponent
  show (UnpackedFloat.unpack .binary64 (UnpackedFloat.pack .binary64 u)).isNaN = false
  generalize UnpackedFloat.unpack .binary64 (UnpackedFloat.pack .binary64 u) = v at hword
  cases v with
  | notANumber => exact absurd rfl hword
  | _ => rfl

/-! ## Differences -/

/-- To subtract is to add the negation. -/
theorem unpacked_sub_eq (a b : UnpackedFloat) :
    UnpackedFloat.sub .binary64 a b = UnpackedFloat.add .binary64 a b.neg := by
  cases a with
  | finite s m e hm =>
    cases b with
    | finite s' m' e' hm' =>
      have hsign (n : Nat) : (-s').apply n = -s'.apply n := by
        cases s' with
        | negative => exact (Int.neg_neg _).symm
        | positive => rfl
      simp only [UnpackedFloat.sub, UnpackedFloat.add, UnpackedFloat.neg, hsign, Int.sub_eq_add_neg]
    | _ => rfl
  | _ => cases b <;> rfl

variable {x y : Float}

/-- A sum is made of what its terms are unpacked to. -/
theorem add_eq_ofModel (x y : Float) : x + y = Float.ofModel (Float.Model.pack
    (UnpackedFloat.add .binary64 x.toModel.unpack y.toModel.unpack)) := rfl

/-- A difference is that of the unpacked numbers, packed again. -/
theorem sub_eq_ofModel (x y : Float) : x - y = Float.ofModel (Float.Model.pack
    (UnpackedFloat.sub .binary64 x.toModel.unpack y.toModel.unpack)) := rfl

/-- To subtract a finite number is to add its negation. -/
theorem sub_eq_add_neg (hy : y.isFinite = true) : x - y = x + -y := by
  rw [sub_eq_ofModel, add_eq_ofModel, unpacked_sub_eq, unpack_neg hy]

/-! ## Sums -/

/-- The sum of finite numbers is no NaN. -/
theorem isNaN_add (hx : x.isFinite = true) (hy : y.isFinite = true) : (x + y).isNaN = false := by
  rw [add_eq_ofModel]
  apply isNaN_pack
  rcases unpack_cases hx with ⟨-, hux⟩ | ⟨-, hm, hux⟩ <;>
    rcases unpack_cases hy with ⟨-, huy⟩ | ⟨-, hm', huy⟩ <;> rw [hux, huy]
  · simp only [UnpackedFloat.add]
    split <;> simp
  · simp [UnpackedFloat.add]
  · simp [UnpackedFloat.add]
  · simp only [UnpackedFloat.add, UnpackedFloat.normalize]
    split
    · exact round_ne_notANumber _ _ _
    · simp
    · exact round_ne_notANumber _ _ _

/-- What is infinite unpacks to an infinity. -/
theorem exists_unpack_of_isInf (hx : x.isInf = true) : ∃ s, x.toModel.unpack = .infinity s := by
  have h : x.toModel.unpack.isInf = true := hx
  rcases hu : x.toModel.unpack with s | _ | _ | _
  · exact ⟨s, rfl⟩
  all_goals
    rw [hu] at h
    cases h

/-- An infinity stays as it is when a finite number is added. -/
theorem add_of_isInf (hx : x.isInf = true) (hy : y.isFinite = true) : x + y = x := by
  obtain ⟨s, hux⟩ := exists_unpack_of_isInf hx
  have hsum : UnpackedFloat.add .binary64 x.toModel.unpack y.toModel.unpack =
      x.toModel.unpack := by
    rcases unpack_cases hy with ⟨-, huy⟩ | ⟨-, hm, huy⟩ <;> rw [hux, huy] <;> rfl
  rw [add_eq_ofModel, hsum]
  exact pack_of_unpack rfl

/-- A number that is no NaN is finite or infinite. -/
theorem isInf_of_not_finite (hnumber : x.isNaN = false) (h : x.isFinite = false) :
    x.isInf = true := by
  rw [isFinite_eq, hnumber] at h
  simpa using h

end SciCalc.Binary64
