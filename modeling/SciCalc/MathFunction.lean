/-!
# Functions

The functions that an expression may call. This list is closed: a word that is not among the names
is no function.
-/

set_option autoImplicit false

namespace SciCalc

/-- A function of the calculator. -/
inductive MathFunction where
  | sqrt | exp | log | ln
  | sin | cos | tan
  | asin | acos | atan
  | sinh | cosh | tanh
  | factorial | permutations | combinations
deriving DecidableEq, Repr

namespace MathFunction

/-- The name by which a function is shown and called. -/
def name : MathFunction → String
  | sqrt => "sqrt"
  | exp => "exp"
  | log => "log"
  | ln => "ln"
  | sin => "sin"
  | cos => "cos"
  | tan => "tan"
  | asin => "asin"
  | acos => "acos"
  | atan => "atan"
  | sinh => "sinh"
  | cosh => "cosh"
  | tanh => "tanh"
  | factorial => "factorial"
  | permutations => "nPr"
  | combinations => "nCr"

/-- The function that a word in small letters names; the decimal logarithm has two names. -/
def ofName? : String → Option MathFunction
  | "sqrt" => some sqrt
  | "exp" => some exp
  | "log" => some log
  | "log10" => some log
  | "ln" => some ln
  | "sin" => some sin
  | "cos" => some cos
  | "tan" => some tan
  | "asin" => some asin
  | "acos" => some acos
  | "atan" => some atan
  | "sinh" => some sinh
  | "cosh" => some cosh
  | "tanh" => some tanh
  | "factorial" => some factorial
  | "npr" => some permutations
  | "ncr" => some combinations
  | _ => none

/-- The number of arguments between the brackets of a call. -/
def arity : MathFunction → Nat
  | permutations | combinations => 2
  | _ => 1

/-- Whether the argument is an angle. Inverse and hyperbolic functions take no angle. -/
def takesAngle : MathFunction → Bool
  | sin | cos | tan => true
  | _ => false

/-- The functions of an angle are sine, cosine and tangent. -/
theorem takesAngle_iff {f : MathFunction} :
    f.takesAngle = true ↔ f ∈ [MathFunction.sin, .cos, .tan] := by
  cases f <;> simp [takesAngle]

/-- A name in small letters is found again. -/
theorem ofName?_name (f : MathFunction) : ofName? (f.name.map Char.toLower) = some f := by
  cases f <;> decide +kernel

end MathFunction

end SciCalc
