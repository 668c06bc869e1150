import SciCalc.Token

/-!
# Percent signs

A percent sign divides by a hundred. After a literal it takes that literal as its operand, so the
quotient is bracketed; elsewhere it divides what stands before it, and the hundred it brings is a
literal that a further percent sign takes in turn.
-/

set_option autoImplicit false

namespace SciCalc.Token

/-- The bracketed hundredth of a literal. -/
def hundredth (v : Float) : List Token :=
  [opening, number v, operator .divide, number 100, closing]

/-- The tokens with every percent sign written as a division. -/
def resolvePercent : List Token → List Token
  | number v :: percent :: ts => hundredth v ++ resolvePercent ts
  | percent :: percent :: ts => operator .divide :: (hundredth 100 ++ resolvePercent ts)
  | percent :: ts => operator .divide :: number 100 :: resolvePercent ts
  | t :: ts => t :: resolvePercent ts
  | [] => []

end SciCalc.Token
