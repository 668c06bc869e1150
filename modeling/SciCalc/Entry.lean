import SciCalc.MathFunction
import SciCalc.Number.Text
import SciCalc.Token

/-!
# Entries

An entry is what one key adds to the line. It has a text to show and a text to evaluate; the line's
two texts are those of its entries, one after the other, so deleting an entry deletes it from both.
-/

set_option autoImplicit false

namespace SciCalc

/-- One entry of the line. -/
inductive Entry where
  | digit (d : Fin 10)
  | point
  | operator (op : Operator)
  | function (f : MathFunction)
  | opening
  | closing
  | comma
  | percent
  | factorialMark
  | permutationMark
  | combinationMark
  | pi
  | answer
  /-- A recalled or chained number. -/
  | number (v : Float)
deriving DecidableEq

namespace Entry

/-- The entry of a digit or of the point. -/
def ofDigit? (c : Char) : Option Entry :=
  if c = '.' then some point
  else if h : c.isDigit ∧ c.toNat - 48 < 10 then some (digit ⟨c.toNat - 48, h.2⟩)
  else none

/-- The text evaluated. -/
def source : Entry → String
  | digit d => String.ofList [Decimal.digitChar d]
  | point => "."
  | operator op => op.sign
  | function f => f.name ++ "("
  | opening => "("
  | closing => ")"
  | comma => ","
  | percent => "%"
  | factorialMark => "!"
  | permutationMark => "P"
  | combinationMark => "C"
  | pi => "π"
  -- The blank keeps the word apart from a digit entered next.
  | answer => "ans "
  -- The brackets make what follows apply to the whole of a negative number.
  | number v => if v < 0 then "(" ++ Number.text v ++ ")" else Number.text v

/-- The text shown. -/
def display : Entry → String
  | operator .multiply => "×"
  | operator .divide => "÷"
  | function .sqrt => "√"
  | function .exp => "e^"
  | function .log => "log"
  | function .ln => "ln"
  | function f => if f.takesAngle then f.name ++ " " else f.name ++ "("
  | answer => "Ans"
  | number v => Number.text v
  | e => e.source

/-- The text evaluated of all entries. -/
def sourceAll (es : List Entry) : String := String.join (es.map source)

/-- The text shown of all entries. -/
def displayAll (es : List Entry) : String := String.join (es.map display)

/-- The source of joined lines is the joined source. -/
theorem sourceAll_append (es fs : List Entry) :
    sourceAll (es ++ fs) = sourceAll es ++ sourceAll fs := by
  simp [sourceAll]

end Entry

end SciCalc
