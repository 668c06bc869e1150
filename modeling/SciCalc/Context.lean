import SciCalc.Rounding

/-!
# Context of a calculation

What an evaluation depends on besides its text: the angle mode, the last result and the rounding of
results. The memory register is kept beside them and no evaluation reads it.
-/

set_option autoImplicit false

namespace SciCalc

/-- How angles are measured. -/
inductive AngleMode where
  | degrees | radians
deriving DecidableEq, Repr

namespace AngleMode

/-- The other mode. -/
def other : AngleMode → AngleMode
  | degrees => radians
  | radians => degrees

/-- The label of a mode. -/
def label : AngleMode → String
  | degrees => "DEG"
  | radians => "RAD"

end AngleMode

/-- The state that outlives a single calculation. -/
structure Context where
  angles : AngleMode := .degrees
  memory : Float := 0
  lastResult : Float := 0
  rounding : Rounding := {}
deriving DecidableEq

end SciCalc
