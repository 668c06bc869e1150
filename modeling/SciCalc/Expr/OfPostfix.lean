import SciCalc.Expr
import SciCalc.Fault

/-!
# Expressions from postfix tokens

A postfix list is read over a stack of trees: a leaf is pushed, an operator or a function takes its
operands off and pushes the node. Exactly one tree must be left.
-/

set_option autoImplicit false

namespace SciCalc.Expr

/-- One postfix token on a stack of trees, last first. -/
def pushToken (stack : List Expr) : Token → Except Malformation (List Expr)
  | .number v => .ok (.number v :: stack)
  | .pi => .ok (.pi :: stack)
  | .answer => .ok (.answer :: stack)
  | .negate =>
    match stack with
    | e :: rest => .ok (.negate e :: rest)
    | _ => .error .invalidPostfix
  | .operator op =>
    match stack with
    | right :: left :: rest => .ok (.binary op left right :: rest)
    | _ => .error .invalidPostfix
  | .function f =>
    let last := stack.take f.arity
    if last.length < f.arity then .error .invalidPostfix
    else .ok (.call f last.reverse :: stack.drop f.arity)
  | t => .error (.notPostfix t)

/-- The stack of trees after postfix tokens. -/
def pushAll (stack : List Expr) (ts : List Token) : Except Malformation (List Expr) :=
  ts.foldlM pushToken stack

/-- The tree of a postfix list. -/
def ofPostfix (ts : List Token) : Except Malformation Expr := do
  match ← pushAll [] ts with
  | [e] => return e
  | _ => .error .invalidPostfix

end SciCalc.Expr
