import SciCalc.History.Ledger
import SciCalc.Session

/-!
# The application

The application is a session beside a ledger. Everything a user can do is an action; a successful
calculation is recorded, and a fault of the store is kept as an alert that never stands in the way
of calculating. While there is an alert the store has fallen behind, so after the next success all
records are written again.
-/

set_option autoImplicit false

namespace SciCalc

open History

/-- What a user can do. -/
inductive Action where
  | enter (e : Entry)
  | evaluate
  | deleteLast
  | clear
  | toggleAngles
  | takeRoot
  | takeReciprocal
  | takeSquare
  | takeFactorial
  | addToMemory
  | subtractFromMemory
  | recallMemory
  | clearMemory
  | clearHistory
  /-- Writes the whole history again. -/
  | persistHistory
deriving DecidableEq

/-- A session, its ledger, and the last fault of the store. -/
structure App (σ : Type) where
  session : Session
  ledger : Ledger σ
  alert : Option StoreFault := none

namespace Session

/-- What an evaluating action calculates, and the session after it. -/
def calculate? (s : Session) : Action → Option (Except Fault Calculation × Session)
  | .evaluate => some s.evaluateLine
  | .takeRoot => some s.takeRoot
  | .takeReciprocal => some s.takeReciprocal
  | .takeSquare => some s.takeSquare
  | .takeFactorial => some s.takeFactorial
  | _ => none

/-- The session after an action that does not evaluate. -/
def edit (s : Session) : Action → Session
  | .enter e => s.enter e
  | .deleteLast => s.deleteLast
  | .clear => s.clear
  | .toggleAngles => s.toggleAngles
  | .addToMemory => s.addToMemory
  | .subtractFromMemory => s.subtractFromMemory
  | .recallMemory => s.recallMemory
  | .clearMemory => s.clearMemory
  | _ => s

/-- The session after an action. -/
def perform (s : Session) (a : Action) : Session :=
  match s.calculate? a with
  | some (_, after) => after
  | none => s.edit a

end Session

namespace App

variable {σ : Type} [Store σ]

/-- The application over a store, showing the history in it. -/
def start (session : Session) (store : σ) : App σ := { session, ledger := Ledger.load store }

/-- Keeps the outcome of a store operation as the alert. -/
def note (app : App σ) (outcome : Except StoreFault Unit × Ledger σ) : App σ :=
  match outcome with
  | (.ok _, ledger) => { app with ledger, alert := none }
  | (.error fault, ledger) => { app with ledger, alert := some fault }

/-- Records a calculation; after an alert a success is followed by writing everything again. -/
def record (app : App σ) (c : Calculation) : App σ :=
  match app.ledger.append (Record.ofCalculation c) with
  | (.ok _, ledger) =>
    if app.alert.isSome then app.note ledger.persist else app.note (.ok (), ledger)
  | outcome => app.note outcome

/-- The application after an action. -/
def execute (app : App σ) (a : Action) : App σ :=
  match app.session.calculate? a with
  | some (.ok c, session) => { app with session }.record c
  | some (.error _, session) => { app with session }
  | none =>
    let after := { app with session := app.session.edit a }
    match a with
    | .clearHistory => after.note after.ledger.clear
    | .persistHistory => after.note after.ledger.persist
    | _ => after

/-- The application after actions, one after the other. -/
def executeAll (app : App σ) (actions : List Action) : App σ := actions.foldl execute app

/-- Actions joined to others are executed one part after the other. -/
theorem executeAll_append (app : App σ) (as bs : List Action) :
    app.executeAll (as ++ bs) = (app.executeAll as).executeAll bs := by
  simp [executeAll]

end App

end SciCalc
