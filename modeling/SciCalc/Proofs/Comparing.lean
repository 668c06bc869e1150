import SciCalc.Proofs.Encodings

/-!
# Comparing numbers

The sign and the field of a number are all that its negation, its magnitude and its comparisons
depend on. A negation changes the sign and a magnitude drops it, and neither touches the field. Two
finite numbers compare as their places do, where the place of a number is its field, counted upwards
from zero for a positive number and downwards for a negative one.
-/

set_option autoImplicit false

namespace SciCalc.Binary64

open Float.Model UnpackedFloat

/-! ## The parts of a finite number -/

/-- The sign of a number. -/
def signOf (x : Float) : Sign := if isNegative x then .negative else .positive

/-- The whole number that a finite field stands for, before it is scaled. -/
def mantissaOf (bits : Nat) : Nat :=
  if bits / Nat.pow 2 52 = 0 then bits else Nat.pow 2 52 + bits % Nat.pow 2 52

/-- The power of two that scales the mantissa of a finite field. -/
def exponentOf (bits : Nat) : Int := (max (bits / Nat.pow 2 52) 1 : Nat) - 1075

/-- The sign bit stands above the field. -/
theorem ofBitVec_unpackSign (x : Float) :
    Sign.ofBitVec (@unpackSign .binary64 x.toBits.toBitVec) = signOf x := by
  have hlt : x.toBits.toNat < 2 ^ 64 := x.toBits.toNat_lt
  have hbit : (@unpackSign .binary64 x.toBits.toBitVec).toNat = x.toBits.toNat / 2 ^ 63 % 2 := by
    simp only [unpackSign, BitVec.toNat_cast, BitVec.extractLsb_toNat,
      Nat.shiftRight_eq_div_pow, Format.binary64]
    rfl
  have hzero : @unpackSign .binary64 x.toBits.toBitVec = 0#1 ↔ x.toBits.toNat / 2 ^ 63 % 2 = 0 := by
    rw [← hbit]
    exact ⟨fun h => by rw [h]; rfl, fun h => BitVec.eq_of_toNat_eq h⟩
  rw [Sign.ofBitVec, signOf, isNegative, Nat.pow_eq]
  simp only [hzero, decide_eq_true_eq]
  split <;> split <;> first | rfl | omega

/-- Below the normal fields the mantissa is the field itself. -/
theorem parts_of_subnormal {m : Nat} (hm : m < 2 ^ 52) :
    mantissaOf m = m ∧ exponentOf m = -1074 := by
  simp only [mantissaOf, exponentOf, Nat.pow_eq]
  split <;> omega

/-- A normal field is its exponent above its mantissa without the leading bit. -/
theorem parts_of_normal {e m : Nat} (he : e ≠ 0) (hm : m < 2 ^ 52) :
    mantissaOf (e * Nat.pow 2 52 + m) = 2 ^ 52 + m ∧
      exponentOf (e * Nat.pow 2 52 + m) = e - 1075 := by
  simp only [mantissaOf, exponentOf, Nat.pow_eq]
  split <;> omega

/-- A finite number is zero, or it is the mantissa of its field, scaled, with its sign. -/
theorem unpack_cases {x : Float} (h : x.isFinite = true) :
    (field x = 0 ∧ x.toModel.unpack = .zero (signOf x)) ∨
      0 < field x ∧ ∃ hm, x.toModel.unpack =
        .finite (signOf x) (mantissaOf (field x)) (exponentOf (field x)) hm := by
  let w : Word := x.toBits.toBitVec
  have hfield : field x = (unpackExponent w).toNat * Nat.pow 2 52 + (unpackMantissa w).toNat :=
    mod_eq_parts w
  have hmantissa : (unpackMantissa w).toNat < 2 ^ 52 := (unpackMantissa w).isLt
  have hexponent : ¬unpackExponent w = -1#11 := by
    rw [unpackExponent_eq_iff]
    exact Nat.not_le.2 ((isFinite_iff x).1 h)
  have hbias : (Format.binary64.exponentBias : Int) = 1023 := rfl
  have hunpack : x.toModel.unpack = UnpackedFloat.unpack .binary64 w := rfl
  have hsign : Sign.ofBitVec (unpackSign w) = signOf x := ofBitVec_unpackSign x
  rw [hunpack, UnpackedFloat.unpack, if_neg hexponent, hsign]
  by_cases hzero : unpackExponent w = 0#11
  case pos =>
    have hsmall : (unpackExponent w).toNat = 0 := by
      rw [hzero]
      rfl
    rw [hsmall, Nat.zero_mul, Nat.zero_add] at hfield
    obtain ⟨hm, he⟩ := parts_of_subnormal hmantissa
    rw [if_pos hzero, hfield, hm, he]
    by_cases hnone : unpackMantissa w = 0#52
    · left
      rw [dif_pos hnone, hnone]
      exact ⟨rfl, rfl⟩
    · have hpos : (unpackMantissa w).toNat ≠ 0 := fun h => hnone (BitVec.eq_of_toNat_eq h)
      right
      rw [dif_neg hnone]
      refine ⟨Nat.pos_of_ne_zero hpos, Nat.pos_of_ne_zero hpos, ?_⟩
      simp only [hsmall, hbias]
      rfl
  case neg =>
    have hlarge : (unpackExponent w).toNat ≠ 0 := fun h => hzero (BitVec.eq_of_toNat_eq h)
    obtain ⟨hm, he⟩ := parts_of_normal hlarge hmantissa
    right
    rw [if_neg hzero, hfield, hm, he]
    refine ⟨?_, ?_, ?_⟩
    · simp only [Nat.pow_eq]
      omega
    · omega
    · simp only [toNat_one_append, hbias]
      rfl

/-! ## Negation and magnitude -/

/-- A number is packed from what it is unpacked to. -/
theorem pack_of_unpack {x : Float} {u : UnpackedFloat} (h : x.toModel.unpack = u) :
    Float.ofModel (Float.Model.pack u) = x := by
  rw [← h]
  exact Float.ofBits_toBits x

/-- The parts of a finite number that is given by its sign and its field. -/
theorem unpack_ofField {bits : Nat} (h : bits < infinityField) (negative : Bool) :
    (ofField negative bits).isFinite = true ∧
      field (ofField negative bits) = bits ∧
      signOf (ofField negative bits) = if negative then .negative else .positive := by
  have hle := Nat.le_of_lt h
  rw [isFinite_iff, field_ofField hle, signOf, isNegative_ofField hle]
  exact ⟨h, rfl, rfl⟩

/-- The number with the other sign and the same field is unpacked to the negation. -/
theorem unpack_ofField_not {x : Float} (h : x.isFinite = true) :
    (ofField (!isNegative x) (field x)).toModel.unpack = x.toModel.unpack.neg := by
  obtain ⟨hfinite, hfield, hsign⟩ := unpack_ofField ((isFinite_iff x).1 h) (!isNegative x)
  have hopposite : signOf (ofField (!isNegative x) (field x)) = -signOf x := by
    rw [hsign, signOf]
    cases isNegative x <;> rfl
  rcases unpack_cases hfinite with ⟨hzero, hy⟩ | ⟨hpos, hm, hy⟩
  · rcases unpack_cases h with ⟨-, hx⟩ | ⟨hpos, -⟩
    · rw [hy, hx, hopposite]
      rfl
    · omega
  · rcases unpack_cases h with ⟨hzero, -⟩ | ⟨-, hm, hx⟩
    · omega
    · rw [hy, hx]
      simp only [hopposite, hfield]
      rfl

/-- The negation of a finite number has the other sign and the same field. -/
theorem neg_eq_ofField {x : Float} (h : x.isFinite = true) :
    -x = ofField (!isNegative x) (field x) := pack_of_unpack (unpack_ofField_not h)

/-- The negation of a finite number is finite. -/
theorem isFinite_neg {x : Float} (h : x.isFinite = true) : (-x).isFinite = true := by
  rw [neg_eq_ofField h]
  exact (unpack_ofField ((isFinite_iff x).1 h) _).1

/-- The negation of a finite number is unpacked to the negation. -/
theorem unpack_neg {x : Float} (h : x.isFinite = true) :
    (-x).toModel.unpack = x.toModel.unpack.neg := by
  rw [neg_eq_ofField h, unpack_ofField_not h]

/-- The magnitude of a finite number is the positive number with its field. -/
theorem abs_eq_ofField {x : Float} (h : x.isFinite = true) : x.abs = ofField false (field x) := by
  obtain ⟨hfinite, hfield, hsign⟩ := unpack_ofField ((isFinite_iff x).1 h) false
  have hunpack : (ofField false (field x)).toModel.unpack = x.toModel.unpack.abs := by
    rcases unpack_cases hfinite with ⟨hzero, hy⟩ | ⟨hpos, hm, hy⟩
    · rcases unpack_cases h with ⟨-, hx⟩ | ⟨hpos, -⟩
      · rw [hy, hx, hsign]
        rfl
      · omega
    · rcases unpack_cases h with ⟨hzero, -⟩ | ⟨-, hm, hx⟩
      · omega
      · rw [hy, hx]
        simp only [hsign, hfield]
        rfl
  exact pack_of_unpack hunpack

/-! ## Order -/

/-- The place of a finite number among all of them; both zeros have the place zero. -/
def place (x : Float) : Int := if isNegative x then -(field x : Int) else field x

/-- A place is counted with the sign. -/
theorem signOf_cases (x : Float) :
    (signOf x = .negative ∧ place x = -(field x : Int)) ∨
      signOf x = .positive ∧ place x = field x := by
  rw [signOf, place]
  cases isNegative x with
  | true => exact .inl ⟨rfl, rfl⟩
  | false => exact .inr ⟨rfl, rfl⟩

/-- Only the zeros have the place zero. -/
theorem place_eq_zero_iff {x : Float} : place x = 0 ↔ field x = 0 := by
  rw [place]
  split <;> omega

/-- Positive fields compare as their exponents do, and as their mantissas if those agree. -/
theorem compare_parts (f g : Nat) :
    (compare (exponentOf f) (exponentOf g)).then (compare (mantissaOf f) (mantissaOf g)) =
      compare f g := by
  have hparts (f : Nat) : mantissaOf f = (if f / 2 ^ 52 = 0 then f else 2 ^ 52 + f % 2 ^ 52) ∧
      exponentOf f = (max (f / 2 ^ 52) 1 : Nat) - 1075 := ⟨rfl, rfl⟩
  obtain ⟨hmf, hef⟩ := hparts f
  obtain ⟨hmg, heg⟩ := hparts g
  rcases Nat.lt_trichotomy f g with hlt | rfl | hgt
  · have h : exponentOf f < exponentOf g ∨
        exponentOf f = exponentOf g ∧ mantissaOf f < mantissaOf g := by
      rw [hmf, hmg, hef, heg]
      split <;> split <;> omega
    rw [Nat.compare_eq_lt.2 hlt]
    rcases h with he | ⟨he, hm⟩
    · rw [Int.compare_eq_lt.2 he]
      rfl
    · rw [Int.compare_eq_eq.2 he, Nat.compare_eq_lt.2 hm]
      rfl
  · simp
  · have h : exponentOf g < exponentOf f ∨
        exponentOf f = exponentOf g ∧ mantissaOf g < mantissaOf f := by
      rw [hmf, hmg, hef, heg]
      split <;> split <;> omega
    rw [Nat.compare_eq_gt.2 hgt]
    rcases h with he | ⟨he, hm⟩
    · rw [Int.compare_eq_gt.2 he]
      rfl
    · rw [Int.compare_eq_eq.2 he, Nat.compare_eq_gt.2 hm]
      rfl

/-- Two finite numbers compare as their places do. -/
theorem compare_unpack {x y : Float} (hx : x.isFinite = true) (hy : y.isFinite = true) :
    x.toModel.unpack.compare y.toModel.unpack = some (compare (place x) (place y)) := by
  have hupwards (f g : Nat) : compare (f : Int) g = compare f g := by
    rcases Nat.lt_trichotomy f g with h | rfl | h
    · rw [Nat.compare_eq_lt.2 h, Int.compare_eq_lt.2 (by omega)]
    · simp
    · rw [Nat.compare_eq_gt.2 h, Int.compare_eq_gt.2 (by omega)]
  have hdownwards (f g : Nat) : compare (-f : Int) (-g) = (compare f g).swap := by
    rw [Nat.compare_swap, ← hupwards]
    rcases Nat.lt_trichotomy f g with h | rfl | h
    · rw [Int.compare_eq_gt.2 (by omega), Int.compare_eq_gt.2 (by omega)]
    · simp
    · rw [Int.compare_eq_lt.2 (by omega), Int.compare_eq_lt.2 (by omega)]
  rcases unpack_cases hx with ⟨hzero, hux⟩ | ⟨hpos, hm, hux⟩
  · have hplace : place x = 0 := place_eq_zero_iff.2 hzero
    rw [hux, hplace]
    rcases unpack_cases hy with ⟨hzero, huy⟩ | ⟨hpos, hm, huy⟩
    · rw [huy, place_eq_zero_iff.2 hzero]
      rfl
    · rw [huy]
      rcases signOf_cases y with ⟨hsign, hplace⟩ | ⟨hsign, hplace⟩ <;> rw [hsign, hplace]
      · exact congrArg some (Int.compare_eq_gt.2 (by omega)).symm
      · exact congrArg some (Int.compare_eq_lt.2 (by omega)).symm
  · rcases unpack_cases hy with ⟨hzero, huy⟩ | ⟨hpos', hm', huy⟩
    · have hplace : place y = 0 := place_eq_zero_iff.2 hzero
      rw [hux, huy, hplace]
      rcases signOf_cases x with ⟨hsign, hplace⟩ | ⟨hsign, hplace⟩ <;> rw [hsign, hplace]
      · exact congrArg some (Int.compare_eq_lt.2 (by omega)).symm
      · exact congrArg some (Int.compare_eq_gt.2 (by omega)).symm
    · rw [hux, huy]
      rcases signOf_cases x with ⟨hsign, hplace⟩ | ⟨hsign, hplace⟩ <;>
        rcases signOf_cases y with ⟨hsign', hplace'⟩ | ⟨hsign', hplace'⟩ <;>
          rw [hsign, hsign', hplace, hplace']
      · exact congrArg some ((congrArg _ (compare_parts _ _)).trans (hdownwards _ _).symm)
      · exact congrArg some (Int.compare_eq_lt.2 (by omega)).symm
      · exact congrArg some (Int.compare_eq_gt.2 (by omega)).symm
      · exact congrArg some ((compare_parts _ _).trans (hupwards _ _).symm)

/-- A number is less than another if what they are unpacked to compares so. -/
theorem lt_iff_compare (x y : Float) :
    x < y ↔ x.toModel.unpack.compare y.toModel.unpack = some .lt := by
  show decide (x.toModel < y.toModel) = true ↔ _
  rw [decide_eq_true_iff]
  exact beq_iff_eq

/-- A number is at most another if what they are unpacked to compares so. -/
theorem le_iff_compare (x y : Float) :
    x ≤ y ↔ (x.toModel.unpack.compare y.toModel.unpack).any (·.isLE) = true := by
  show decide (x.toModel ≤ y.toModel) = true ↔ _
  rw [decide_eq_true_iff]
  exact Iff.rfl

section

variable {x y : Float} (hx : x.isFinite = true) (hy : y.isFinite = true)

include hx hy

/-- A finite number is less than another exactly if its place is. -/
theorem lt_iff_place : x < y ↔ place x < place y := by
  rw [lt_iff_compare, compare_unpack hx hy, Option.some_inj, Int.compare_eq_lt]

/-- A finite number is at most another exactly if its place is. -/
theorem le_iff_place : x ≤ y ↔ place x ≤ place y := by
  rw [le_iff_compare, compare_unpack hx hy, Option.any_some, Int.isLE_compare]

/-- Two finite numbers are equal in value exactly if their places are. -/
theorem beq_iff_place : (x == y) = true ↔ place x = place y := by
  have hbeq : (x == y) = true ↔ x.toModel.unpack.compare y.toModel.unpack = some .eq := by
    show (x.toModel.unpack.compare y.toModel.unpack == some .eq) = true ↔ _
    exact beq_iff_eq
  rw [hbeq, compare_unpack hx hy, Option.some_inj, Int.compare_eq_eq]

end

/-- A number above a finite number and up to another is finite. -/
theorem isFinite_of_lt_of_le {x low high : Float} (hlow : low.isFinite = true)
    (hhigh : high.isFinite = true) (hlt : low < x) (hle : x ≤ high) : x.isFinite = true := by
  rw [lt_iff_compare] at hlt
  rw [le_iff_compare] at hle
  show x.toModel.unpack.isFinite = true
  cases hx : x.toModel.unpack with
  | infinity s =>
    rw [hx] at hlt hle
    cases s with
    | negative =>
      rcases unpack_cases hlow with ⟨-, hu⟩ | ⟨-, hm, hu⟩ <;> rw [hu] at hlt <;> cases hlt
    | positive =>
      rcases unpack_cases hhigh with ⟨-, hu⟩ | ⟨-, hm, hu⟩ <;> rw [hu] at hle <;> cases hle
  | notANumber =>
    rw [hx] at hle
    rcases unpack_cases hhigh with ⟨-, hu⟩ | ⟨-, hm, hu⟩ <;> rw [hu] at hle <;> cases hle
  | zero s => rfl
  | finite s m e hm => rfl

end SciCalc.Binary64
