import SciCalc.Fault
import SciCalc.Text.Blank

/-!
# The root key

The root key reads its line as two numbers `x,y` and answers the x-th root of y. A number may stand
in one pair of brackets, as a recalled negative number does, and blanks may surround it on either
side of the brackets.
-/

set_option autoImplicit false

namespace SciCalc.Root

/-- The characters inside one enclosing pair of brackets, or all of them without such a pair. -/
def stripBrackets (cs : List Char) : List Char :=
  match cs with
  | '(' :: rest => if rest.getLast? = some ')' then rest.dropLast else cs
  | _ => cs

/-- A number in optional brackets and blanks. -/
def operand? (cs : List Char) : Option Float :=
  Number.ofChars? (Text.trimChars (stripBrackets (Text.trimChars cs)))

/-- The pair of finite numbers around the first comma. -/
def pair? (cs : List Char) : Option (Float × Float) :=
  match cs.dropWhile (· != ',') with
  | ',' :: after =>
    match operand? (cs.takeWhile (· != ',')), operand? after with
    | some x, some y => if x.isFinite && y.isFinite then some (x, y) else none
    | _, _ => none
  | _ => none

/-- Reads the pair of a text. -/
def readPair (text : String) : Except Fault (Float × Float) :=
  match pair? text.toList with
  | some p => .ok p
  | none => .error (.malformed (.notPair text))

/-- The x-th root of y. -/
def root (x y : Float) : Except Fault Float :=
  if x == 0 then .error (.numeric .zeroRootIndex)
  else finite .root (Float.pow y (1 / x))

end SciCalc.Root
