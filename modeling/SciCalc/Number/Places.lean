import SciCalc.Number.Binary64

/-!
# Rounding to decimal places

Rounding a number to a fixed count of decimal places. The exact binary value is rounded to the grid
of multiples of `10 ^ -places`, ties to the even multiple, and the result is the number nearest to
that multiple. No product with a power of ten is rounded on the way, so no magnitude is too large
and a rounded number stays where it is.
-/

set_option autoImplicit false

namespace SciCalc.Number

/-- A binary64 number has at most this many decimal places. -/
def mostPlaces : Nat := 1074

/-- The multiple of `10 ^ -places` nearest to the magnitude of `x`, counted in such multiples. -/
def multipleOfPlaces (x : Float) (places : Nat) : Nat :=
  Binary64.roundHalfEven (Binary64.units x * Nat.pow 10 places) Binary64.unitsPerOne

/-- The number rounded to decimal places; its sign is kept, and so is what is not finite. -/
def roundPlaces (x : Float) (places : Nat) : Float :=
  let kept := min places mostPlaces
  if x.isFinite then
    Binary64.nearest (Binary64.isNegative x) (multipleOfPlaces x kept) (Nat.pow 10 kept)
  else x

end SciCalc.Number
