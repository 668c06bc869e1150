import SciCalc.Session

/-!
# Records of the history

A record is a line `expression = result`. A line is read at its last separator, so the expression
may hold separators and the result may not; a line without a separator is an expression without a
result.
-/

set_option autoImplicit false

namespace SciCalc.History

/-- One line of the history. -/
structure Record where
  expression : String
  result : String
deriving DecidableEq, Repr

/-- What stands between expression and result. -/
def separator : List Char := [' ', '=', ' ']

/-- The characters before and after the last separator. -/
def splitLast? : List Char → Option (List Char × List Char)
  | [] => none
  | c :: cs =>
    match splitLast? cs with
    | some (before, after) => some (c :: before, after)
    | none =>
      if separator.isPrefixOf (c :: cs) then some ([], (c :: cs).drop separator.length) else none

namespace Record

/-- The line of a record. -/
def text (r : Record) : String := r.expression ++ String.ofList separator ++ r.result

/-- The record of a line. -/
def ofText (line : String) : Record :=
  match splitLast? line.toList with
  | some (before, after) => ⟨String.ofList before, String.ofList after⟩
  | none => ⟨line, ""⟩

/-- The record of a calculation. -/
def ofCalculation (c : Calculation) : Record := ⟨c.expression, Number.text c.result⟩

end Record

end SciCalc.History
