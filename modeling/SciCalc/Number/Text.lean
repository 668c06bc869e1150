import SciCalc.Number.Shortest

/-!
# The text of a number

The text of a number and the reading of one. A number is written with the fewest digits that read
back, always positionally, so what is shown can be typed in again.
-/

set_option autoImplicit false

namespace SciCalc.Number

/-- The characters of a magnitude: `inf`, `0`, or the shortest decimal. -/
def magnitudeText (bits : Nat) : List Char :=
  if bits = Binary64.infinityField then ['i', 'n', 'f']
  else if bits = 0 then ['0']
  else (Decimal.shortest bits).text

/-- The characters of a number. -/
def chars (x : Float) : List Char :=
  if x.isNaN then ['N', 'a', 'N']
  else if Binary64.isNegative x then '-' :: magnitudeText (Binary64.field x)
  else magnitudeText (Binary64.field x)

/-- The text of a number. -/
def text (x : Float) : String := String.ofList (chars x)

/-- The words for an infinity and for a NaN, in any case. -/
def special? (negative : Bool) (cs : List Char) : Option Float :=
  let word := cs.map Char.toLower
  if word = "inf".toList ∨ word = "infinity".toList then
    some (Binary64.ofField negative Binary64.infinityField)
  else if word = "nan".toList then some (0.0 / 0.0)
  else none

/-- Reads a number without its sign. -/
def unsigned? (negative : Bool) (cs : List Char) : Option Float :=
  (special? negative cs).or
    ((Decimal.read? cs).map fun d => Binary64.ofField negative d.field)

/-- Reads a number: an optional sign, then a decimal or a special word. -/
def ofChars? : List Char → Option Float
  | '-' :: cs => unsigned? true cs
  | '+' :: cs => unsigned? false cs
  | cs => unsigned? false cs

/-- Reads a number from a whole text. -/
def parse? (s : String) : Option Float := ofChars? s.toList

end SciCalc.Number
