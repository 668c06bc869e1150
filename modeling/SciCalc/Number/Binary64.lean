/-!
# Binary64 magnitudes

The value of a binary64 number as a whole count of least units, and the nearest number to a ratio.

A finite number has the magnitude `units x / 2 ^ 1074`, with `units x` a natural number, so every
question about values and about rounding is one of natural number arithmetic. `nearestMagnitude`
goes the other way: it rounds a ratio to the nearest magnitude, ties to the even one, and what is
too large becomes infinity.
-/

set_option autoImplicit false

namespace SciCalc.Binary64

/-- The least positive magnitude is `1 / unitsPerOne`. -/
def unitsPerOne : Nat := Nat.pow 2 1074

/-- The magnitude field of both infinities; every larger field is that of a NaN. -/
def infinityField : Nat := 0x7FF0000000000000

/-- The encoding without its sign bit. -/
def field (x : Float) : Nat := x.toBits.toNat % Nat.pow 2 63

/-- Whether the sign bit is set, also that of a zero. -/
def isNegative (x : Float) : Bool := Nat.pow 2 63 ≤ x.toBits.toNat

/-- The count of least units that a magnitude field stands for. -/
def unitsOfField (bits : Nat) : Nat :=
  let exponent := bits / Nat.pow 2 52
  if exponent = 0 then bits else (Nat.pow 2 52 + bits % Nat.pow 2 52) * Nat.pow 2 (exponent - 1)

/-- The magnitude of a finite number in least units. -/
def units (x : Float) : Nat := unitsOfField (field x)

/-- The number with the given sign and magnitude field. -/
def ofField (negative : Bool) (bits : Nat) : Float :=
  Float.ofBits (UInt64.ofNat (if negative then Nat.pow 2 63 + bits else bits))

/-- The whole number nearest to `num / den`, a tie going to the even one. -/
def roundHalfEven (num den : Nat) : Nat :=
  let quotient := num / den
  let twice := 2 * (num % den)
  if twice < den then quotient
  else if den < twice then quotient + 1
  else quotient + quotient % 2

/--
The magnitude field nearest to `num / den` for a positive `den`, ties to the even field. Below
`2 ^ 53` units the spacing is one unit; above, it is the power of two that leaves 53 digits.
-/
def nearestField (num den : Nat) : Nat :=
  let scaled := num * unitsPerOne
  let shift := (scaled / den).log2 - 52
  min infinityField (shift * Nat.pow 2 52 + roundHalfEven scaled (den * Nat.pow 2 shift))

/-- The number of the given sign nearest to `num / den`; an infinity where that overflows. -/
def nearest (negative : Bool) (num den : Nat) : Float :=
  ofField negative (nearestField num den)

/-- The number nearest to a natural number. -/
def ofNat (n : Nat) : Float := nearest false n 1

/-- The natural number that a finite number equals in magnitude, if it is whole. -/
def wholeMagnitude? (x : Float) : Option Nat :=
  if units x % unitsPerOne = 0 then some (units x / unitsPerOne) else none

/-- An exact quotient stays as it is. -/
theorem roundHalfEven_mul_self (n den : Nat) (h : 0 < den) : roundHalfEven (n * den) den = n := by
  simp [roundHalfEven, Nat.mul_div_cancel n h, h]

/-- A common factor makes no difference to the rounded quotient. -/
theorem roundHalfEven_mul_right (num den c : Nat) (h : 0 < c) :
    roundHalfEven (num * c) (den * c) = roundHalfEven num den := by
  have hlt : 2 * (num % den * c) < den * c ↔ 2 * (num % den) < den := by
    rw [← Nat.mul_assoc]; exact Nat.mul_lt_mul_right h
  have hgt : den * c < 2 * (num % den * c) ↔ den < 2 * (num % den) := by
    rw [← Nat.mul_assoc]; exact Nat.mul_lt_mul_right h
  simp only [roundHalfEven, Nat.mul_div_mul_right num den h, Nat.mul_mod_mul_right, hlt, hgt]

/-- A common factor makes no difference to the nearest number. -/
theorem nearestField_mul_right (num den c : Nat) (h : 0 < c) :
    nearestField (num * c) (den * c) = nearestField num den := by
  have hs : num * c * unitsPerOne = num * unitsPerOne * c := by
    rw [Nat.mul_right_comm]
  have hd : ∀ k : Nat, den * c * Nat.pow 2 k = den * Nat.pow 2 k * c :=
    fun k => Nat.mul_right_comm _ _ _
  simp only [nearestField, hs, hd, Nat.mul_div_mul_right _ _ h, roundHalfEven_mul_right _ _ _ h]

end SciCalc.Binary64
