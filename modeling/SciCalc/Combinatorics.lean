import SciCalc.Fault

/-!
# Counting functions

Factorials, permutations and combinations of natural operands. The count is computed exactly and
rounded once at the end; operands whose count is too large for any finite number are refused before
it is computed. The operands and the factors are machine words of 64 bits. The first factor of a
product of permutations is a sum, and it leaves the word if nothing is chosen from as many items as
a word can tell.
-/

set_option autoImplicit false

namespace SciCalc.Combinatorics

/-- The factorial of a larger number, and any product of more distinct factors, overflows. -/
def mostFactors : Nat := 170

/-- With more items both chosen and left out, the number of combinations overflows. -/
def mostChosen : Nat := 1100

/-- The product `(m + 1) * … * (m + i)`. -/
def productAbove (m : Nat) : Nat → Nat
  | 0 => 1
  | i + 1 => productAbove m i * (m + i + 1)

/-- The number of ways to choose `i` of `m + i` items, each step an exact division. -/
def chooseAbove (m : Nat) : Nat → Nat
  | 0 => 1
  | i + 1 => chooseAbove m i * (m + i + 1) / (i + 1)

/-- The largest machine word. Operands up to this are read exactly; it stands also for the next
natural number. -/
def largestOperand : Nat := Nat.pow 2 64 - 1

/-- The natural number that an operand of `f` equals. -/
def natural (f : MathFunction) (x : Float) : Except Fault Nat :=
  let refused := .error (.outOfDomain (.notNatural f x))
  if ¬ x.isFinite ∨ x < 0 then refused
  else match Binary64.wholeMagnitude? x with
    | none => refused
    | some n =>
      if n > Nat.pow 2 64 then .error (.numeric (.operandTooLarge f))
      else .ok (min n largestOperand)

/-- The operands `n` and `r` of a choice, with `r` at most `n`. -/
def choice (f : MathFunction) (n r : Float) : Except Fault (Nat × Nat) := do
  let total ← natural f n
  let chosen ← natural f r
  if total < chosen then .error (.outOfDomain (.tooManyChosen f (n - r)))
  else .ok (total, chosen)

/-- The number nearest to a count. -/
def rounded (f : MathFunction) (count : Nat) : Except Fault Float :=
  finite (.function f) (Binary64.ofNat count)

/-- The fault of a count that no finite number holds. -/
def overflow (f : MathFunction) : Except Fault Float := .error (.numeric (.overflow (.function f)))

/-- `n!`. -/
def factorial (n : Float) : Except Fault Float := do
  let n ← natural .factorial n
  if mostFactors < n then overflow .factorial else rounded .factorial (productAbove 0 n)

/-- The number of ordered choices of `r` out of `n` items, the product from `n - r + 1` to `n`. -/
def permutations (n r : Float) : Except Fault Float := do
  let (n, r) ← choice .permutations n r
  if mostFactors < r then overflow .permutations
  else if largestOperand < n - r + 1 then .error (.numeric .wordOverflow)
  else rounded .permutations (productAbove (n - r) r)

/-- The number of unordered choices of `r` out of `n` items. -/
def combinations (n r : Float) : Except Fault Float := do
  let (n, r) ← choice .combinations n r
  let k := min r (n - r)
  if mostChosen < k then overflow .combinations
  else rounded .combinations (chooseAbove (n - k) k)

end SciCalc.Combinatorics
