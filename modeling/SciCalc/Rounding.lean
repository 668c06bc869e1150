import SciCalc.Number.Places

/-!
# Settling a result

How a raw value becomes the value shown: rounded to decimal places, with noise around zero removed
and, if wanted, values next to plus or minus one snapped to it.
-/

set_option autoImplicit false

namespace SciCalc

/-- The settings of the rounding of results. -/
structure Rounding where
  /-- Decimal places kept. -/
  places : Nat := 10
  /-- A magnitude below this becomes zero. -/
  zeroThreshold : Float := 1e-10
  /-- Whether a magnitude closer than the threshold to one becomes one. -/
  snapsToUnit : Bool := true
deriving DecidableEq

namespace Rounding

/-- Zero for what is smaller in magnitude than the threshold. -/
def dropNoise (r : Rounding) (v : Float) : Float :=
  if v.abs < r.zeroThreshold then 0 else v

/-- Plus or minus one for what is closer to it than the threshold, if the settings ask for it. -/
def snapUnit (r : Rounding) (v : Float) : Float :=
  if r.snapsToUnit ∧ (v.abs - 1).abs < r.zeroThreshold then
    if Binary64.isNegative v then -1 else 1
  else v

/-- Zero without its sign; anything else unchanged. -/
def clearSignOfZero (v : Float) : Float := if v == 0 then 0 else v

/-- The value shown for a raw value. -/
def settle (r : Rounding) (x : Float) : Float :=
  clearSignOfZero (r.snapUnit (r.dropNoise (Number.roundPlaces x r.places)))

end Rounding

end SciCalc
