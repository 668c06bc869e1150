import SciCalc.Token

/-!
# Closing brackets

Missing closing brackets are added at the end, as many as the counts differ. Surplus ones stay.
-/

set_option autoImplicit false

namespace SciCalc.Token

/-- How many closing brackets the tokens lack. -/
def missingClosings (ts : List Token) : Nat := ts.count opening - ts.count closing

/-- The tokens with the missing closing brackets at the end. -/
def closeBrackets (ts : List Token) : List Token :=
  ts ++ List.replicate (missingClosings ts) closing

/-- Afterwards no closing bracket is missing. -/
theorem missingClosings_closeBrackets (ts : List Token) :
    missingClosings (closeBrackets ts) = 0 := by
  have h : List.count opening (List.replicate (missingClosings ts) closing) = 0 :=
    List.count_eq_zero.2 (by simp)
  simp only [closeBrackets, missingClosings, List.count_append, List.count_replicate_self] at *
  omega

end SciCalc.Token
