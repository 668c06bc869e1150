import SciCalc.Number.Decimal

/-!
# The shortest decimal of a number

The decimal with the fewest digits that reads back as a given binary64 magnitude, and of those the
nearest one. For one, two, … seventeen digits the two neighbours of the value on that grid are
tried; the exact decimal stands behind them, so an answer always reads back.
-/

set_option autoImplicit false

namespace SciCalc.Decimal

/-- The place of the leading digit of a positive natural number, counted from zero. -/
def leadingPlace (n : Nat) : Nat :=
  let place := n.log2 * 30102 / 100000
  if Nat.pow 10 (place + 1) ≤ n then place + 1 else place

/-- The power of ten of the leading digit of `units / 2 ^ 1074`. -/
def leadingExponent (units : Nat) : Int :=
  leadingPlace (units * Nat.pow 10 400 / Binary64.unitsPerOne) - 400

/-- The same value with trailing zeros of the coefficient moved into the exponent. -/
def reduce (d : Decimal) : Decimal :=
  if 0 < d.coefficient ∧ d.coefficient % 10 = 0 then reduce ⟨d.coefficient / 10, d.exponent + 1⟩
  else d
termination_by d.coefficient

/-- The exact value of a magnitude in least units. -/
def exact (units : Nat) : Decimal := ⟨units * Nat.pow 5 1074, -1074⟩

/--
The neighbour of `units / 2 ^ 1074` on the grid of multiples of `10 ^ exponent` that reads back as
`bits`. If both do it is the nearer one, and the upper one at equal distance.
-/
def onGrid? (bits units : Nat) (exponent : Int) : Option Decimal :=
  let num := units * Nat.pow 10 (-exponent).toNat
  let den := Binary64.unitsPerOne * Nat.pow 10 exponent.toNat
  let lower := reduce ⟨num / den, exponent⟩
  let upper := reduce ⟨num / den + 1, exponent⟩
  let candidates := if 2 * (num % den) < den then [lower, upper] else [upper, lower]
  candidates.find? (·.field == bits)

/-- The shortest decimal of the magnitude field `bits`. -/
def shortest (bits : Nat) : Decimal :=
  let units := Binary64.unitsOfField bits
  let leading := leadingExponent units
  ((List.range 17).findSome? fun (k : Nat) => onGrid? bits units (leading - k)).getD (exact units)

/-- A decimal that is found on a grid reads back as the number. -/
theorem onGrid?_field {bits units : Nat} {exponent : Int} {d : Decimal}
    (h : onGrid? bits units exponent = some d) : d.field = bits := by
  simpa using List.find?_some h

/-- Whatever the search finds reads back; otherwise the exact decimal is taken. -/
theorem shortest_eq_exact_or_field (bits : Nat) :
    shortest bits = exact (Binary64.unitsOfField bits) ∨ (shortest bits).field = bits := by
  unfold shortest
  dsimp only
  cases h : (List.range 17).findSome? fun (k : Nat) =>
      onGrid? bits (Binary64.unitsOfField bits)
        (leadingExponent (Binary64.unitsOfField bits) - k) with
  | none => exact .inl rfl
  | some d =>
    obtain ⟨_, _, hk⟩ := List.exists_of_findSome?_eq_some h
    exact .inr (onGrid?_field hk)

end SciCalc.Decimal
