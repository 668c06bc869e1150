import SciCalc.Fault

/-!
# From infix to postfix

The conversion reads the tokens once. Operands go straight to the output; operators, negations and
open brackets wait on a stack until a weaker operator, a comma or a closing bracket releases them. A
bracket knows the function it belongs to and how many commas it has seen, so the number of arguments
is checked where it closes. The first token that cannot go on a well-formed expression is the fault.
-/

set_option autoImplicit false

namespace SciCalc.Postfix

/-- What waits on the stack. -/
inductive Pending where
  | operator (op : Operator)
  | negation
  /-- An open bracket, the function whose call it opens, and the commas seen in it. -/
  | bracket (callee : Option MathFunction) (commas : Nat)
deriving DecidableEq

namespace Pending

/-- Whether this is an open bracket. -/
def isBracket : Pending → Bool
  | bracket _ _ => true
  | _ => false

/-- The token of a released operator or negation. -/
def token : Pending → Token
  | operator op => .operator op
  | negation => .negate
  | bracket _ _ => .opening

/-- Whether what waits comes before an operator that arrives now. -/
def precedes (arriving : Operator) : Pending → Bool
  | operator op =>
    if arriving.groupsRight then arriving.strength < op.strength
    else arriving.strength ≤ op.strength
  | negation =>
    if arriving.groupsRight then arriving.strength < Operator.negationStrength
    else arriving.strength ≤ Operator.negationStrength
  | bracket _ _ => false

end Pending

/-- The state of the conversion. -/
structure State where
  /-- The postfix tokens so far, last first. -/
  output : List Token := []
  /-- What waits, innermost first. -/
  pending : List Pending := []
  /-- Whether an operand has just ended. -/
  afterValue : Bool := false
  /-- The function whose opening bracket must come next. -/
  awaiting : Option MathFunction := none
deriving DecidableEq

namespace State

/-- Releases what waits as long as it satisfies `p`. -/
def release (s : State) (p : Pending → Bool) : State :=
  { s with
    output := ((s.pending.takeWhile p).map Pending.token).reverse ++ s.output
    pending := s.pending.dropWhile p }

/-- Releases all that waits inside the innermost bracket. -/
def releaseToBracket (s : State) : State := s.release fun p => !p.isBracket

/-- The function and the commas of the innermost bracket. -/
def innermost? (s : State) : Option (Option MathFunction × Nat) :=
  s.pending.findSome? fun
    | .bracket callee commas => some (callee, commas)
    | _ => none

/-- An operand of one token. -/
def operand (s : State) (t : Token) : Except Malformation State :=
  if s.afterValue then .error (.operatorMissing t)
  else .ok { s with output := t :: s.output, afterValue := true }

/-- A function name, whose bracket must follow. -/
def callee (s : State) (f : MathFunction) : Except Malformation State :=
  if s.afterValue then .error (.operatorMissing (.function f))
  else .ok { s with awaiting := some f }

/-- An opening bracket. -/
def opening (s : State) : Except Malformation State :=
  if s.afterValue then .error (.operatorMissing .opening)
  else .ok { s with pending := .bracket s.awaiting 0 :: s.pending, awaiting := none }

/-- A comma between the arguments of a call. -/
def comma (s : State) : Except Malformation State :=
  match s.innermost? with
  | some (some _, _) =>
    if s.afterValue then
      let s := s.releaseToBracket
      match s.pending with
      | .bracket callee commas :: rest =>
        .ok { s with pending := .bracket callee (commas + 1) :: rest, afterValue := false }
      | _ => .error .commaOutsideCall
    else .error (.operandMissing .comma)
  | _ => .error .commaOutsideCall

/-- A closing bracket; that of a call also checks the number of its arguments. -/
def closing (s : State) : Except Malformation State :=
  match s.innermost? with
  | none => .error .surplusClosing
  | some (callee, commas) =>
    if s.afterValue then
      let s := s.releaseToBracket
      let s := { s with pending := s.pending.tail }
      match callee with
      | none => .ok s
      | some f =>
        if commas + 1 = f.arity then .ok { s with output := .function f :: s.output }
        else .error (.wrongArity f (commas + 1))
    else .error (.operandMissing .closing)

/-- An operator; before an operand a plus is ignored and a minus negates. -/
def operator (s : State) (op : Operator) : Except Malformation State :=
  if s.afterValue then
    let s := s.release (Pending.precedes op)
    .ok { s with pending := .operator op :: s.pending, afterValue := false }
  else match op with
    | .add => .ok s
    | .subtract => .ok { s with pending := .negation :: s.pending }
    | op => .error (.operandMissing (.operator op))

/-- Reads one token where no bracket is awaited. -/
def read (s : State) : Token → Except Malformation State
  | .number v => s.operand (.number v)
  | .pi => s.operand .pi
  | .answer => s.operand .answer
  | .function f => s.callee f
  | .opening => s.opening
  | .comma => s.comma
  | .closing => s.closing
  | .operator op => s.operator op
  | .negate => .error .internalToken
  | .percent => .error (.strayMark .percent)
  | .factorialMark => .error (.strayMark .factorialMark)
  | .permutationMark => .error (.strayMark .permutationMark)
  | .combinationMark => .error (.strayMark .combinationMark)
  | .unknown text => .error (.unknownText text)

/-- Reads one token. -/
def step (s : State) (t : Token) : Except Malformation State :=
  match s.awaiting with
  | some f => if t = .opening then s.opening else .error (.bracketMissing f)
  | none => s.read t

/-- The postfix tokens once all tokens are read. -/
def finish (s : State) : Except Malformation (List Token) :=
  match s.awaiting with
  | some f => .error (.argumentsMissing f)
  | none =>
    if !s.afterValue then .error .incomplete
    else if s.pending.any Pending.isBracket then .error .unclosed
    else .ok (s.output.reverse ++ s.pending.map Pending.token)

end State

/-- Reads tokens one after the other from a state. -/
def readAll (s : State) (ts : List Token) : Except Malformation State := ts.foldlM State.step s

/-- The postfix form of infix tokens. -/
def ofInfix (ts : List Token) : Except Malformation (List Token) :=
  if ts = [] then .error .emptyInput
  else do
    let s ← readAll {} ts
    s.finish

end SciCalc.Postfix
