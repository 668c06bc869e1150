import SciCalc.Token

/-!
# Expressions

The tree of an expression, its size and its text.
-/

set_option autoImplicit false

namespace SciCalc

/-- An expression. A call may have any number of arguments; reading builds only fitting ones. -/
inductive Expr where
  | number (value : Float)
  | pi
  /-- The last result. -/
  | answer
  | negate (operand : Expr)
  | binary (op : Operator) (left right : Expr)
  | call (f : MathFunction) (arguments : List Expr)

namespace Expr

mutual

/-- The number of nodes. -/
def size : Expr → Nat
  | number _ => 1
  | pi => 1
  | answer => 1
  | negate e => e.size + 1
  | binary _ l r => l.size + r.size + 1
  | call _ args => sizeAll args + 1

/-- The number of nodes of all the expressions. -/
def sizeAll : List Expr → Nat
  | [] => 0
  | e :: es => e.size + sizeAll es

end

mutual

/-- The text of the tree: a leaf by itself, any other node bracketed before its children. -/
def text : Expr → String
  | number v => Number.text v
  | pi => Token.pi.text
  | answer => Token.answer.text
  | negate e => "(" ++ Token.negate.text ++ " " ++ e.text ++ ")"
  | binary op l r => "(" ++ op.sign ++ " " ++ l.text ++ " " ++ r.text ++ ")"
  | call f args => "(" ++ f.name ++ textAll args ++ ")"

/-- The texts of expressions, each after a space. -/
def textAll : List Expr → String
  | [] => ""
  | e :: es => " " ++ e.text ++ textAll es

end

end Expr

end SciCalc
