import SciCalc.MathFunction
import SciCalc.Number.Text

/-!
# Tokens

Tokens of the calculator's language and their text.
-/

set_option autoImplicit false

namespace SciCalc

/-- A binary operator. -/
inductive Operator where
  | add | subtract | multiply | divide | raise
deriving DecidableEq, Repr

namespace Operator

/-- The sign of an operator. -/
def sign : Operator → String
  | add => "+"
  | subtract => "-"
  | multiply => "*"
  | divide => "/"
  | raise => "^"

/-- How strongly an operator binds; `negationStrength` lies between products and powers. -/
def strength : Operator → Nat
  | add | subtract => 1
  | multiply | divide => 2
  | raise => 4

/-- How strongly the negation before an operand binds. -/
def negationStrength : Nat := 3

/-- Whether a chain of the operator groups from the right. -/
def groupsRight : Operator → Bool
  | raise => true
  | _ => false

end Operator

/-- A token of an expression. -/
inductive Token where
  /-- A literal. -/
  | number (value : Float)
  | pi
  /-- The last result. -/
  | answer
  | function (f : MathFunction)
  | operator (op : Operator)
  /-- The negation of one operand; only the postfix form has it. -/
  | negate
  | opening
  | closing
  | comma
  | percent
  /-- The mark of `n!`. -/
  | factorialMark
  /-- The mark of `nPr`. -/
  | permutationMark
  /-- The mark of `nCr`. -/
  | combinationMark
  /-- Text that is no token of the language. -/
  | unknown (text : String)
deriving DecidableEq

namespace Token

/-- The text of a token. -/
def text : Token → String
  | number v => Number.text v
  | pi => "π"
  | answer => "Ans"
  | function f => f.name
  | operator op => op.sign
  | negate => "neg"
  | opening => "("
  | closing => ")"
  | comma => ","
  | percent => "%"
  | factorialMark => "!"
  | permutationMark => "P"
  | combinationMark => "C"
  | unknown s => "?" ++ s

/-- The texts of tokens with one space between them. -/
def listText (ts : List Token) : String := " ".intercalate (ts.map text)

/-- Whether an operand may end with the token. -/
def endsValue : Token → Bool
  | number _ | pi | answer | closing => true
  | _ => false

/-- Whether an operand may start with the token. -/
def startsValue : Token → Bool
  | number _ | pi | answer | function _ | opening => true
  | _ => false

/-- Whether the token is a literal. -/
def isNumber : Token → Bool
  | number _ => true
  | _ => false

end Token

end SciCalc
