import Mathlib
import SciCalc.Number.Binary64

/-!
# Encodings

A number and its encoding determine each other, unless the encoding is a NaN with a payload. The
magnitude field is the exponent above the mantissa, so a word up to that of infinity is no NaN. A
number is therefore given by its sign and its magnitude field, and it is finite exactly if the field
lies below that of infinity.
-/

set_option autoImplicit false

namespace SciCalc.Binary64

open Float.Model UnpackedFloat

/-! ## The parts of an encoding -/

/-- A word of 64 bits in the format of binary64. -/
abbrev Word := BitVec Format.binary64.numBits

/-- The exponent of a word as a number. -/
theorem toNat_unpackExponent (b : Word) :
    (unpackExponent b).toNat = b.toNat / Nat.pow 2 52 % Nat.pow 2 11 := by
  simp only [unpackExponent, BitVec.toNat_cast, BitVec.extractLsb_toNat, Nat.shiftRight_eq_div_pow,
    Nat.pow_eq, Format.binary64]

/-- The mantissa of a word as a number. -/
theorem toNat_unpackMantissa (b : Word) : (unpackMantissa b).toNat = b.toNat % Nat.pow 2 52 := by
  simp only [unpackMantissa, BitVec.toNat_cast, BitVec.extractLsb_toNat, Nat.shiftRight_zero,
    Nat.pow_eq, Format.binary64]

/-- The leading bit of a normal number stands above its mantissa. -/
theorem toNat_one_append (m : BitVec 52) : (1#1 ++ m).toNat = 2 ^ 52 + m.toNat := by
  rw [BitVec.toNat_append, ← Nat.shiftLeft_add_eq_or_of_lt m.isLt]
  rfl

/-- The magnitude field is the exponent and the mantissa. -/
theorem mod_eq_parts (b : Word) :
    b.toNat % Nat.pow 2 63 =
      (unpackExponent b).toNat * Nat.pow 2 52 + (unpackMantissa b).toNat := by
  rw [toNat_unpackExponent, toNat_unpackMantissa]
  simp only [Nat.pow_eq]
  omega

/-- The exponent of the infinities and NaNs has all bits set. -/
theorem unpackExponent_eq_iff (b : Word) :
    unpackExponent b = -1#11 ↔ infinityField ≤ b.toNat % Nat.pow 2 63 := by
  have hexponent : (unpackExponent b).toNat < 2 ^ 11 := (unpackExponent b).isLt
  have hmantissa : (unpackMantissa b).toNat < 2 ^ 52 := (unpackMantissa b).isLt
  have hall : unpackExponent b = -1#11 ↔ (unpackExponent b).toNat = 2047 :=
    ⟨fun h => by rw [h]; rfl, fun h => BitVec.eq_of_toNat_eq h⟩
  rw [mod_eq_parts, hall, infinityField]
  simp only [Nat.pow_eq]
  omega

/-- A word up to that of an infinity is no NaN. -/
theorem valid_of_le {b : Word} (h : b.toNat % Nat.pow 2 63 ≤ infinityField) :
    Format.binary64.Valid b := by
  refine ⟨fun hexponent hpayload => absurd (BitVec.eq_of_toNat_eq ?_) hpayload⟩
  have hlast : (unpackExponent b).toNat = 2047 := by
    rw [hexponent]
    rfl
  rw [mod_eq_parts, hlast, infinityField] at h
  show (unpackMantissa b).toNat = 0
  simp only [Nat.pow_eq] at h
  omega

/-! ## Numbers and their encodings -/

/-- The encoding of the number of a word is the word, if that is no NaN. -/
theorem toBits_ofBits {u : UInt64} (h : u.toNat % Nat.pow 2 63 ≤ infinityField) :
    (Float.ofBits u).toBits = u := by
  simp only [Float.toBits, Float.ofBits, Float.Model.ofBits, Float.Model.pack,
    pack_unpack_of_valid (valid_of_le h)]

/-- A number is finite exactly if its field is below that of infinity. -/
theorem isFinite_iff (x : Float) : x.isFinite = true ↔ field x < infinityField := by
  have hexponent := unpackExponent_eq_iff x.toBits.toBitVec
  rw [field, ← Nat.not_le, show x.toBits.toNat = x.toBits.toBitVec.toNat from rfl, ← hexponent]
  show (UnpackedFloat.unpack .binary64 x.toBits.toBitVec).isFinite = true ↔ _
  rw [UnpackedFloat.unpack]
  split
  case isTrue h =>
    refine iff_of_false ?_ fun hn => hn h
    split <;> simp [UnpackedFloat.isFinite]
  case isFalse h =>
    refine iff_of_true ?_ h
    split
    case isTrue => split <;> rfl
    case isFalse => rfl

/-- What is finite is no infinity and is a number. -/
theorem isFinite_eq (x : Float) : x.isFinite = (!x.isNaN && !x.isInf) := by
  simp only [Float.isFinite, Float.isNaN, Float.isInf, Float.Model.isFinite, Float.Model.isNaN,
    Float.Model.isInf]
  cases x.toModel.unpack <;> rfl

/-- A number is given by its sign and its field. -/
theorem ofField_field (x : Float) : ofField (isNegative x) (field x) = x := by
  have hword : (if isNegative x then Nat.pow 2 63 + field x else field x) = x.toBits.toNat := by
    have hlt := x.toBits.toNat_lt
    cases hnegative : isNegative x with
    | true =>
      have hle : Nat.pow 2 63 ≤ x.toBits.toNat := of_decide_eq_true hnegative
      simp only [field, if_true, Nat.pow_eq] at hle ⊢
      omega
    | false =>
      have hlt : ¬Nat.pow 2 63 ≤ x.toBits.toNat := of_decide_eq_false hnegative
      simp only [field, Nat.pow_eq] at hlt ⊢
      simp
      omega
  rw [ofField, hword, UInt64.ofNat_toNat, Float.ofBits_toBits]

section

variable {bits : Nat} (h : bits ≤ infinityField) (negative : Bool)

include h

/-- A field up to that of infinity and a sign are encoded as they are. -/
theorem toNat_toBits_ofField :
    (ofField negative bits).toBits.toNat = (if negative then Nat.pow 2 63 else 0) + bits := by
  have hword : (UInt64.ofNat (if negative then Nat.pow 2 63 + bits else bits)).toNat =
      (if negative then Nat.pow 2 63 else 0) + bits := by
    rw [infinityField] at h
    rw [UInt64.toNat_ofNat']
    cases negative <;> simp <;> omega
  rw [ofField, toBits_ofBits, hword]
  rw [hword]
  rw [infinityField] at h ⊢
  cases negative <;> simp <;> omega

/-- The field of an encoded number. -/
theorem field_ofField : field (ofField negative bits) = bits := by
  have hbits := h
  rw [infinityField] at hbits
  rw [field, toNat_toBits_ofField h]
  cases negative <;> simp <;> omega

/-- The sign of an encoded number. -/
theorem isNegative_ofField : isNegative (ofField negative bits) = negative := by
  have hbits := h
  rw [infinityField] at hbits
  rw [isNegative, toNat_toBits_ofField h]
  cases negative <;> simp
  omega

end

end SciCalc.Binary64
