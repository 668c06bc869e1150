import SciCalc.Token

/-!
# Marks

The marks `n!`, `nPr` and `nCr` are short for calls on literals. A mark without its literal operands
stays as it is and is refused later.
-/

set_option autoImplicit false

namespace SciCalc.Token

/-- The call of a function of one literal. -/
def callOne (f : MathFunction) (v : Float) : List Token :=
  [function f, opening, number v, closing]

/-- The call of a function of two literals. -/
def callTwo (f : MathFunction) (v w : Float) : List Token :=
  [function f, opening, number v, comma, number w, closing]

/-- Every factorial mark after a literal written as a call. -/
def expandFactorials : List Token → List Token
  | number v :: factorialMark :: ts => callOne .factorial v ++ expandFactorials ts
  | t :: ts => t :: expandFactorials ts
  | [] => []

/-- Every use of a mark between two literals written as a call of `f`, from left to right. -/
def expandBetween (mark : Token) (f : MathFunction) : List Token → List Token
  | number v :: t :: number w :: ts =>
    if t = mark then callTwo f v w ++ expandBetween mark f ts
    else number v :: expandBetween mark f (t :: number w :: ts)
  | t :: ts => t :: expandBetween mark f ts
  | [] => []

/-- Every mark on literals written as a call: factorials, then permutations, then combinations. -/
def expandMarks (ts : List Token) : List Token :=
  expandBetween combinationMark .combinations
    (expandBetween permutationMark .permutations (expandFactorials ts))

end SciCalc.Token
