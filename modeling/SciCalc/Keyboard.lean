import SciCalc.App

/-!
# The keyboard

Key names and typed characters as actions. A typed text is one key name if there is such a key;
otherwise its characters are typed one by one, and those that mean nothing are skipped.
-/

set_option autoImplicit false

namespace SciCalc

namespace Entry

/-- The entry that a typed character makes. -/
def ofTyped? : Char → Option Entry
  | '+' => some (operator .add)
  | '-' => some (operator .subtract)
  | '*' => some (operator .multiply)
  | '/' => some (operator .divide)
  | '(' => some opening
  | ')' => some closing
  | c => ofDigit? c

end Entry

namespace Keyboard

/-- The action of a key. -/
def action? (key : String) : Option Action :=
  if key = "Enter" ∨ key = "=" then some .evaluate
  else if key = "Backspace" then some .deleteLast
  else if key = "c" ∨ key = "C" then some .clear
  else match key.toList with
    | [c] => (Entry.ofTyped? c).map .enter
    | _ => none

/-- An event of the keyboard; the other keys mean nothing. -/
inductive Event where
  | text (typed : String)
  | pressEnter
  | pressBackspace
  | pressEscape
deriving DecidableEq

/-- The actions of a typed text. -/
def actionsOfText (typed : String) : List Action :=
  match action? typed with
  | some a => [a]
  | none => typed.toList.filterMap fun c => action? (String.ofList [c])

/-- The actions of an event, apart from those of the escape key. -/
def actionsOfEvent : Event → List Action
  | .text typed => actionsOfText typed
  | .pressEnter => (action? "Enter").toList
  | .pressBackspace => (action? "Backspace").toList
  | .pressEscape => []

/-- The actions of the events of one frame: an escape anywhere in it clears the line first. -/
def actionsOfFrame (events : List Event) : List Action :=
  (if Event.pressEscape ∈ events then [Action.clear] else []) ++ events.flatMap actionsOfEvent

end Keyboard

end SciCalc
