import SciCalc.Number.Binary64

/-!
# Decimals

Decimals: a natural coefficient times a power of ten, their positional text, and the reading of
decimal text. A decimal stands for the binary64 magnitude nearest to it, so a number may be written
by any decimal whose field is the number's own.
-/

set_option autoImplicit false

namespace SciCalc

/-- The value `coefficient * 10 ^ exponent`. -/
structure Decimal where
  coefficient : Nat
  exponent : Int
deriving DecidableEq, Repr

namespace Decimal

/-- The numerator of the value. -/
def numerator (d : Decimal) : Nat := d.coefficient * Nat.pow 10 d.exponent.toNat

/-- The denominator of the value. -/
def denominator (d : Decimal) : Nat := Nat.pow 10 (-d.exponent).toNat

/--
The magnitude field nearest to the value. Exponents that only an infinity or a zero can answer are
settled first, so no huge power of ten is computed.
-/
def field (d : Decimal) : Nat :=
  if d.coefficient = 0 then 0
  else if 400 < d.exponent then Binary64.infinityField
  else if d.exponent < -(d.coefficient.log2 + 400 : Int) then 0
  else Binary64.nearestField d.numerator d.denominator

/-! ### Digits -/

/-- The character of a digit below ten. -/
def digitChar (n : Nat) : Char := Char.ofNat (48 + n)

/-- The decimal digits of a natural number, without leading zeros; zero has one digit. -/
def digits (n : Nat) : List Char :=
  if n < 10 then [digitChar n] else digits (n / 10) ++ [digitChar (n % 10)]
termination_by n

/-- The number that a run of digits spells. -/
def ofDigits (ds : List Char) : Nat :=
  ds.foldl (fun n c => 10 * n + (c.toNat - 48)) 0

/-! ### Writing -/

/-- Digits with the point before the last `places` of them, filled up with leading zeros. -/
def pointBefore (places : Nat) (ds : List Char) : List Char :=
  let filled := List.replicate (places + 1 - ds.length) '0' ++ ds
  filled.take (filled.length - places) ++ '.' :: filled.drop (filled.length - places)

/-- Positional text, never with an exponent: `1200`, `0.0012`. -/
def text (d : Decimal) : List Char :=
  if 0 ≤ d.exponent then digits d.coefficient ++ List.replicate d.exponent.toNat '0'
  else pointBefore (-d.exponent).toNat (digits d.coefficient)

/-! ### Reading -/

/-- The number spelled by a run of digits that must not be empty. -/
def natural? (cs : List Char) : Option Nat :=
  if cs ≠ [] ∧ cs.all Char.isDigit then some (ofDigits cs) else none

/-- An exponent part: absent, or `e` or `E`, an optional sign and digits. -/
def exponentPart? : List Char → Option Int
  | [] => some 0
  | c :: cs =>
    if c = 'e' ∨ c = 'E' then
      match cs with
      | '-' :: ds => (natural? ds).map fun n => -(n : Int)
      | '+' :: ds => (natural? ds).map fun n => (n : Int)
      | ds => (natural? ds).map fun n => (n : Int)
    else none

/-- The digits after the point, where there is a point, and what follows them. -/
def fractionPart : List Char → List Char × List Char
  | '.' :: cs => (cs.takeWhile Char.isDigit, cs.dropWhile Char.isDigit)
  | cs => ([], cs)

/--
Reads an unsigned decimal: digits with at most one point, at least one digit, and an optional
exponent part. Nothing else may stand before, between or after.
-/
def read? (cs : List Char) : Option Decimal :=
  let whole := cs.takeWhile Char.isDigit
  let (fraction, rest) := fractionPart (cs.dropWhile Char.isDigit)
  if whole = [] ∧ fraction = [] then none
  else (exponentPart? rest).map fun e =>
    ⟨ofDigits (whole ++ fraction), e - fraction.length⟩

end Decimal

end SciCalc
