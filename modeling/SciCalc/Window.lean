import SciCalc.Keyboard

/-!
# The window

What the window shows, as texts in order, and what its keys, headers and buttons do. Two panels can
be folded: the working and the history.
-/

set_option autoImplicit false

namespace SciCalc

/-- An application and which of its panels are unfolded. -/
structure Window (σ : Type) where
  app : App σ
  workingOpen : Bool := false
  historyOpen : Bool := true

namespace Window

/-- A key of the pad. -/
structure Key where
  label : String
  action : Action

/-- The key of a digit. -/
def digitKey (d : Fin 10) : Key := ⟨(Entry.digit d).display, .enter (.digit d)⟩

/-- The key of a function. -/
def functionKey (label : String) (f : MathFunction) : Key := ⟨label, .enter (.function f)⟩

/-- The keys of the pad in reading order; the first one is labelled with the mode it changes to. -/
def pad (angles : AngleMode) : List Key :=
  [⟨angles.other.label, .toggleAngles⟩, ⟨"MC", .clearMemory⟩, ⟨"MR", .recallMemory⟩,
    ⟨"M+", .addToMemory⟩, ⟨"M−", .subtractFromMemory⟩,
   functionKey "sin" .sin, functionKey "cos" .cos, functionKey "tan" .tan, functionKey "√" .sqrt,
    ⟨"x√y", .takeRoot⟩,
   functionKey "asin" .asin, functionKey "acos" .acos, functionKey "atan" .atan,
    functionKey "sinh" .sinh, functionKey "cosh" .cosh,
   functionKey "tanh" .tanh, functionKey "log" .log, functionKey "ln" .ln,
    functionKey "eˣ" .exp, ⟨"^", .enter (.operator .raise)⟩,
   ⟨"x²", .takeSquare⟩, ⟨"n!", .takeFactorial⟩, ⟨"nPr", .enter .permutationMark⟩,
    ⟨"nCr", .enter .combinationMark⟩, ⟨"1/x", .takeReciprocal⟩,
   ⟨"(", .enter .opening⟩, ⟨")", .enter .closing⟩, ⟨",", .enter .comma⟩,
    ⟨"%", .enter .percent⟩, ⟨"!", .enter .factorialMark⟩,
   digitKey 7, digitKey 8, digitKey 9, ⟨"DEL", .deleteLast⟩, ⟨"C", .clear⟩,
   digitKey 4, digitKey 5, digitKey 6, ⟨"×", .enter (.operator .multiply)⟩,
    ⟨"÷", .enter (.operator .divide)⟩,
   digitKey 1, digitKey 2, digitKey 3, ⟨"+", .enter (.operator .add)⟩,
    ⟨"−", .enter (.operator .subtract)⟩,
   digitKey 0, ⟨".", .enter .point⟩, ⟨"π", .enter .pi⟩, ⟨"Ans", .enter .answer⟩,
    ⟨"=", .evaluate⟩]

variable {σ : Type} [Store σ]

/-! ### What is shown -/

/-- The title of the window. -/
def title : String := "Calculatrice scientifique"

/-- The header of the working. -/
def workingHeader : String := "Démarche"

/-- The header of the history. -/
def historyHeader : String := "Historique"

/-- The button that clears the history. -/
def clearButton : String := "Effacer l’historique"

/-- The button that writes the history again. -/
def retryButton : String := "Réessayer"

/-- The texts above the pad. -/
def top (w : Window σ) : List String :=
  let context := w.app.session.context
  let shown := w.app.session.display
  [title, context.angles.label] ++ (if context.memory == 0 then [] else ["M"]) ++
    [if shown = "" then "0" else shown] ++
    (w.app.session.line.fault?.map Fault.message).toList

/-- The keys of the pad as they are now. -/
def keys (w : Window σ) : List Key := pad w.app.session.context.angles

/-- The label of the key that changes the angle mode. -/
def angleLabel (w : Window σ) : String := w.app.session.context.angles.other.label

/-- The panel of the working. -/
def workingPanel (w : Window σ) : List String :=
  if w.workingOpen then
    match w.app.session.working with
    | none => ["Aucun calcul pour l’instant."]
    | some working =>
      ["Source :", working.source, "Jetons :", working.tokens, "RPN :", working.postfixTokens,
        "Brut :", working.rawValue, "Note :", working.note]
  else []

/-- Whether the button that clears the history is shown. -/
def showsClear (w : Window σ) : Bool := w.historyOpen && !w.app.ledger.records.isEmpty

/-- Whether the button that writes the history again is shown. -/
def showsRetry (w : Window σ) : Bool := w.historyOpen && w.app.alert.isSome

/-- The panel of the history, latest record first. -/
def historyPanel (w : Window σ) : List String :=
  if w.historyOpen then
    (if w.app.ledger.records.isEmpty then ["Historique vide."]
      else w.app.ledger.records.reverse.map History.Record.text ++ [clearButton]) ++
    match w.app.alert with
    | none => []
    | some fault => ["Historique non sauvegardé : " ++ fault.message, retryButton]
  else []

/-- The texts below the pad. -/
def bottom (w : Window σ) : List String :=
  workingHeader :: w.workingPanel ++ historyHeader :: w.historyPanel

/-! ### What can be done -/

/-- The window after an action. -/
def execute (w : Window σ) (a : Action) : Window σ := { w with app := w.app.execute a }

/-- The window after a click on a label, if anything of that label can be clicked. -/
def click? (w : Window σ) (label : String) : Option (Window σ) :=
  if label = workingHeader then some { w with workingOpen := !w.workingOpen }
  else if label = historyHeader then some { w with historyOpen := !w.historyOpen }
  else if label = clearButton then
    if w.showsClear then some (w.execute .clearHistory) else none
  else if label = retryButton then
    if w.showsRetry then some (w.execute .persistHistory) else none
  else (w.keys.find? (·.label = label)).map fun key => w.execute key.action

/-- The window after the events of one frame. -/
def frame (w : Window σ) (events : List Keyboard.Event) : Window σ :=
  { w with app := w.app.executeAll (Keyboard.actionsOfFrame events) }

end Window

end SciCalc
