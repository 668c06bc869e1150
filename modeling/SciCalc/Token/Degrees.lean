import SciCalc.Context
import SciCalc.Token

/-!
# Angles in degrees

In degrees the whole argument of sine, cosine and tangent is multiplied by π / 180: the factor goes
behind the opening bracket of the call, the argument gets brackets of its own, and those close where
the call closes. No other function is touched.
-/

set_option autoImplicit false

namespace SciCalc.Token

/-- A call of `f` up to its argument, which is bracketed behind the factor π / 180. -/
def openInDegrees (f : MathFunction) : List Token :=
  [function f, opening, pi, operator .divide, number 180, operator .multiply, opening]

/--
Converts the tokens inside the brackets `within`, innermost first; a bracket marked `true` has
opened a second one that closes with it.
-/
def convertWithin : List Bool → List Token → List Token
  | within, function f :: opening :: ts =>
    if f.takesAngle then openInDegrees f ++ convertWithin (true :: within) ts
    else function f :: opening :: convertWithin (false :: within) ts
  | within, opening :: ts => opening :: convertWithin (false :: within) ts
  | true :: within, closing :: ts => closing :: closing :: convertWithin within ts
  | within, closing :: ts => closing :: convertWithin within.tail ts
  | within, t :: ts => t :: convertWithin within ts
  | _, [] => []

/-- The tokens with the angles of the mode written in radians. -/
def convertAngles (mode : AngleMode) (ts : List Token) : List Token :=
  match mode with
  | .degrees => convertWithin [] ts
  | .radians => ts

end SciCalc.Token
