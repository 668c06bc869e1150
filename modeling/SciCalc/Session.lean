import SciCalc.Entry
import SciCalc.Evaluation
import SciCalc.Session.Root

/-!
# Sessions

A session is the living state of one calculator: the line, the context, and the working of the last
successful evaluation. A failed evaluation replaces the line by its fault and touches nothing else;
a successful one leaves its result as the only entry, so that a calculation can go on from it.
-/

set_option autoImplicit false

namespace SciCalc

/-- The line: entries, or the fault that took their place. -/
inductive Line where
  | entries (es : List Entry)
  | failed (fault : Fault)
deriving DecidableEq

namespace Line

/-- The entries of the line; a failed line has none. -/
def toList : Line → List Entry
  | entries es => es
  | failed _ => []

/-- The fault shown on the line. -/
def fault? : Line → Option Fault
  | entries _ => none
  | failed fault => some fault

/-- The text that stands for any fault. -/
def faultIndicator : String := "Erreur"

/-- The text shown. -/
def display : Line → String
  | entries es => Entry.displayAll es
  | failed _ => faultIndicator

/-- The text evaluated. -/
def source (l : Line) : String := Entry.sourceAll l.toList

end Line

/-- A successful calculation, as the history keeps it. -/
structure Calculation where
  /-- The expression as it was shown. -/
  expression : String
  result : Float
deriving DecidableEq

/-- The state of a calculator. -/
structure Session where
  line : Line := .entries []
  context : Context := {}
  /-- The working of the last successful evaluation of a whole line. -/
  working : Option Working := none
deriving DecidableEq

namespace Session

/-- A session that starts in the given context. -/
def start (context : Context) : Session := { context }

/-- The text shown. -/
def display (s : Session) : String := s.line.display

/-! ### The line -/

/-- Adds an entry; it takes the place of a fault. -/
def enter (s : Session) (e : Entry) : Session :=
  { s with line := .entries (s.line.toList ++ [e]) }

/-- Deletes the last entry, or the fault. -/
def deleteLast (s : Session) : Session :=
  { s with line := .entries s.line.toList.dropLast }

/-- Empties the line. -/
def clear (s : Session) : Session := { s with line := .entries [] }

/-- Changes the angle mode. -/
def toggleAngles (s : Session) : Session :=
  { s with context := { s.context with angles := s.context.angles.other } }

/-! ### Evaluation -/

/--
The session after an evaluating key, and what the key has calculated. A calculation that breaks off
leaves no session to go on with; it is kept here like one that fails.
-/
def conclude (s : Session) (outcome : Except Fault Calculation) :
    Except Fault Calculation × Session :=
  match outcome with
  | .ok c =>
    (outcome, { s with
      line := .entries [.number c.result]
      context := { s.context with lastResult := c.result } })
  | .error fault => (outcome, { s with line := .failed fault })

/-- Evaluates the line. -/
def evaluateLine (s : Session) : Except Fault Calculation × Session :=
  match evaluateWithWorking s.line.source s.context with
  | .ok (v, working) =>
    { s with working := some working }.conclude
      (.ok { expression := Text.trim (Entry.displayAll s.line.toList), result := v })
  | .error fault => s.conclude (.error fault)

/-- The root of the pair on the line. -/
def takeRoot (s : Session) : Except Fault Calculation × Session :=
  s.conclude do
    let (x, y) ← Root.readPair s.line.source
    let r ← Root.root x y
    return { expression := Number.text x ++ "√" ++ Number.text y
             result := s.context.rounding.settle r }

/-- The reciprocal of the line's value. -/
def takeReciprocal (s : Session) : Except Fault Calculation × Session :=
  s.conclude do
    let n ← evaluate s.line.source s.context
    if n == 0 then .error (.numeric .divisionByZero)
    let r ← finite .reciprocal (1 / n)
    return { expression := "1/(" ++ Number.text n ++ ")"
             result := s.context.rounding.settle r }

/-- The square of the line, whose text is bracketed and squared. -/
def takeSquare (s : Session) : Except Fault Calculation × Session :=
  s.conclude do
    let v ← evaluate ("(" ++ s.line.source ++ ")^2") s.context
    return { expression := "(" ++ Entry.displayAll s.line.toList ++ ")²", result := v }

/-- The factorial of the line's value. -/
def takeFactorial (s : Session) : Except Fault Calculation × Session :=
  s.conclude do
    let n ← evaluate s.line.source s.context
    let r ← Combinatorics.factorial n
    return { expression := Number.text n ++ "!", result := r }

/-! ### Memory -/

/-- The value of the line; zero if it is empty or has none. -/
def lineValue (s : Session) : Float :=
  if s.line.toList.isEmpty then 0
  else match evaluate s.line.source s.context with
    | .ok v => v
    | .error _ => 0

/-- Puts a number into the memory. -/
def setMemory (s : Session) (v : Float) : Session :=
  { s with context := { s.context with memory := v } }

/-- Adds the line's value to the memory. -/
def addToMemory (s : Session) : Session := s.setMemory (s.context.memory + s.lineValue)

/-- Subtracts the line's value from the memory. -/
def subtractFromMemory (s : Session) : Session := s.setMemory (s.context.memory - s.lineValue)

/-- Enters the number in the memory. -/
def recallMemory (s : Session) : Session := s.enter (.number s.context.memory)

/-- Sets the memory to zero. -/
def clearMemory (s : Session) : Session := s.setMemory 0

end Session

end SciCalc
