import SciCalc.Token

/-!
# Juxtaposed operands

Two operands side by side are a product: `2π`, `(1+2)(3+4)`. Two literals side by side are not;
they stay as they are and are refused later.
-/

set_option autoImplicit false

namespace SciCalc.Token

/-- Whether a product sign belongs between two neighbours. -/
def juxtaposed (before after : Token) : Bool :=
  before.endsValue && after.startsValue && !(before.isNumber && after.isNumber)

/-- The tokens with a product sign between juxtaposed operands. -/
def insertProducts : List Token → List Token
  | a :: b :: ts =>
    if juxtaposed a b then a :: operator .multiply :: insertProducts (b :: ts)
    else a :: insertProducts (b :: ts)
  | ts => ts

end SciCalc.Token
