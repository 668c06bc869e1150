import SciCalc.Proofs.Transcripts
import SciCalc.Store.Memory
import SciCalc.Window

/-!
# Typing several characters at once

A text may reach the keyboard in one piece. It is meant to do what its characters do one by one, and
it does, unless it spells the name of a key. There are two such names: the first evaluates and the
second deletes an entry, while the characters of the first mean nothing and two of the second clear
the line. So what a text does differs from what its characters do only where evaluating changes
something, or where more than one entry stands on the line.
-/

set_option autoImplicit false

namespace SciCalc

namespace Keyboard

/-- The actions of characters that are typed one by one; some mean nothing. -/
def actionsOfChars (cs : List Char) : List Action :=
  cs.filterMap fun c => action? (String.ofList [c])

/-- Joined characters act one part after the other. -/
theorem actionsOfChars_append (cs ds : List Char) :
    actionsOfChars (cs ++ ds) = actionsOfChars cs ++ actionsOfChars ds :=
  List.filterMap_append

/-- A key evaluates, deletes, clears, or enters what its one character stands for. -/
theorem action?_eq_some {key : String} {a : Action} (h : action? key = some a) :
    a = .evaluate ∧ (key = "Enter" ∨ key = "=") ∨ a = .deleteLast ∧ key = "Backspace" ∨
      a = .clear ∧ (key = "c" ∨ key = "C") ∨ ∃ e c, a = .enter e ∧ key = String.ofList [c] := by
  by_cases hevaluate : key = "Enter" ∨ key = "="
  · rw [action?, if_pos hevaluate] at h
    exact .inl ⟨(Option.some.inj h).symm, hevaluate⟩
  by_cases hdelete : key = "Backspace"
  · rw [action?, if_neg hevaluate, if_pos hdelete] at h
    exact .inr (.inl ⟨(Option.some.inj h).symm, hdelete⟩)
  by_cases hclear : key = "c" ∨ key = "C"
  · rw [action?, if_neg hevaluate, if_neg hdelete, if_pos hclear] at h
    exact .inr (.inr (.inl ⟨(Option.some.inj h).symm, hclear⟩))
  rw [action?, if_neg hevaluate, if_neg hdelete, if_neg hclear] at h
  split at h
  case h_1 c hchars =>
    obtain ⟨e, -, rfl⟩ := Option.map_eq_some_iff.1 h
    exact .inr (.inr (.inr ⟨e, c, rfl, by rw [← hchars, String.ofList_toList]⟩))
  case h_2 => cases h

/-- The name of a key with an action is one character, or one of the two names. -/
theorem key_of_action? {key : String} {a : Action} (h : action? key = some a) :
    key = "Enter" ∨ key = "Backspace" ∨ ∃ c, key = String.ofList [c] := by
  rcases action?_eq_some h with
    ⟨-, hkey | hkey⟩ | ⟨-, hkey⟩ | ⟨-, hkey | hkey⟩ | ⟨e, c, -, hkey⟩
  · exact .inl hkey
  · exact .inr (.inr ⟨'=', hkey⟩)
  · exact .inr (.inl hkey)
  · exact .inr (.inr ⟨'c', hkey⟩)
  · exact .inr (.inr ⟨'C', hkey⟩)
  · exact .inr (.inr ⟨c, hkey⟩)

/-- A text that does not spell the name of a key does what its characters do. -/
theorem actionsOfText_eq {typed : String} (henter : typed ≠ "Enter")
    (hbackspace : typed ≠ "Backspace") : actionsOfText typed = actionsOfChars typed.toList := by
  rw [actionsOfText]
  cases haction : action? typed with
  | none => rfl
  | some a =>
    rcases key_of_action? haction with h | h | ⟨c, rfl⟩
    · exact absurd h henter
    · exact absurd h hbackspace
    · simp only [actionsOfChars, String.toList_ofList, List.filterMap_cons, haction,
        List.filterMap_nil]

/-- The name of the enter key evaluates, and none of its characters does anything. -/
theorem actionsOfText_enter :
    actionsOfText "Enter" = [.evaluate] ∧ actionsOfChars "Enter".toList = [] := by
  decide +kernel

/-- The name of the backspace key deletes an entry, and two of its characters clear the line. -/
theorem actionsOfText_backspace :
    actionsOfText "Backspace" = [.deleteLast] ∧
      actionsOfChars "Backspace".toList = [.clear, .clear] := by
  decide +kernel

end Keyboard

namespace App

variable {σ : Type}

/--
The name of a key that a text may spell does here what its characters do: an empty line has just
been evaluated, or the line has at most one entry to delete.
-/
structure AllowsText (app : App σ) (typed : String) : Prop where
  line_of_enter : typed = "Enter" → app.session.line = .failed (.malformed .emptyInput)
  length_of_backspace : typed = "Backspace" → app.session.line.toList.length ≤ 1

/-- Whether a state allows a text can be computed from the two. -/
instance (app : App σ) (typed : String) : Decidable (app.AllowsText typed) :=
  decidable_of_iff
    ((typed = "Enter" → app.session.line = .failed (.malformed .emptyInput)) ∧
      (typed = "Backspace" → app.session.line.toList.length ≤ 1))
    ⟨fun h => ⟨h.1, h.2⟩, fun h => ⟨h.1, h.2⟩⟩

variable [Store σ]

/-- No action changes nothing. -/
@[simp] theorem executeAll_nil (app : App σ) : app.executeAll [] = app := rfl

/-- The first action is executed before the others. -/
@[simp] theorem executeAll_cons (app : App σ) (a : Action) (as : List Action) :
    app.executeAll (a :: as) = (app.execute a).executeAll as := rfl

/-- An action that does not concern the history edits the line or the context. -/
theorem execute_of_edit (app : App σ) {a : Action} (hnone : app.session.calculate? a = none)
    (ha : a.isOfSession = true) :
    app.execute a = { app with session := app.session.edit a } := by
  rw [App.execute, hnone]
  cases a with
  | clearHistory => cases ha
  | persistHistory => cases ha
  | _ => rfl

/-- Deleting an entry changes the session only. -/
theorem execute_deleteLast (app : App σ) :
    app.execute .deleteLast = { app with session := app.session.deleteLast } :=
  execute_of_edit app rfl rfl

/-- Clearing the line changes the session only. -/
theorem execute_clear (app : App σ) :
    app.execute .clear = { app with session := app.session.clear } :=
  execute_of_edit app rfl rfl

/-- Evaluating changes nothing exactly where an empty line has just been evaluated. -/
theorem execute_evaluate_eq_self_iff (app : App σ) :
    app.execute .evaluate = app ↔ app.session.line = .failed (.malformed .emptyInput) := by
  have hempty (context : Context) :
      evaluateWithWorking "" context = .error (.malformed .emptyInput) := rfl
  rcases houtcome : evaluateWithWorking app.session.line.source app.session.context
    with fault | ⟨v, working⟩
  · have hexecute : app.execute .evaluate =
        { app with session := { app.session with line := .failed fault } } := by
      simp [App.execute, Session.calculate?, Session.evaluateLine, houtcome, Session.conclude]
    rw [hexecute]
    constructor
    · intro h
      have hline : Line.failed fault = app.session.line := congrArg (·.session.line) h
      rw [← hline] at houtcome ⊢
      rw [← Except.error.inj ((hempty _).symm.trans houtcome)]
    · intro h
      rw [h] at houtcome
      obtain rfl := Except.error.inj ((hempty _).symm.trans houtcome)
      rw [← h]
  · constructor
    · -- A success is recorded, so the history has become longer.
      intro h
      have hrecords := records_execute app .evaluate
      rw [h] at hrecords
      simp [Session.calculation?, Session.calculate?, Session.evaluateLine, houtcome,
        Session.conclude] at hrecords
    · intro h
      rw [h] at houtcome
      cases (hempty _).symm.trans houtcome

/-- Deleting the last entry is clearing the line exactly where there is at most one entry. -/
theorem execute_deleteLast_eq_clear_iff (app : App σ) :
    app.execute .deleteLast = app.execute .clear ↔ app.session.line.toList.length ≤ 1 := by
  rw [execute_deleteLast, execute_clear]
  constructor
  · intro h
    have hline : app.session.line.toList.dropLast = [] :=
      Line.entries.inj (congrArg (·.session.line) h)
    have hlength := congrArg List.length hline
    rw [List.length_dropLast, List.length_nil] at hlength
    omega
  · intro h
    have hline : app.session.line.toList.dropLast = [] := by
      rw [← List.length_eq_zero_iff, List.length_dropLast]
      omega
    rw [Session.deleteLast, Session.clear, hline]

/-- A text does what its characters do exactly where it is allowed. -/
theorem executeAll_actionsOfText_eq_iff (app : App σ) (typed : String) :
    app.executeAll (Keyboard.actionsOfText typed) =
        app.executeAll (Keyboard.actionsOfChars typed.toList) ↔ app.AllowsText typed := by
  by_cases henter : typed = "Enter"
  · subst henter
    obtain ⟨htext, hchars⟩ := Keyboard.actionsOfText_enter
    simp only [htext, hchars, executeAll_cons, executeAll_nil]
    rw [execute_evaluate_eq_self_iff]
    exact ⟨fun h => ⟨fun _ => h, by simp⟩, fun h => h.line_of_enter rfl⟩
  by_cases hbackspace : typed = "Backspace"
  · subst hbackspace
    obtain ⟨htext, hchars⟩ := Keyboard.actionsOfText_backspace
    have htwice : (app.execute .clear).execute .clear = app.execute .clear := by
      simp [execute_clear, Session.clear]
    simp only [htext, hchars, executeAll_cons, executeAll_nil]
    rw [htwice, execute_deleteLast_eq_clear_iff]
    exact ⟨fun h => ⟨by simp, fun _ => h⟩, fun h => h.length_of_backspace rfl⟩
  · rw [Keyboard.actionsOfText_eq henter hbackspace]
    exact iff_of_true rfl ⟨fun h => absurd h henter, fun h => absurd h hbackspace⟩

end App

namespace Window

open Keyboard (actionsOfChars)

variable {σ : Type} [Store σ]

/--
A text that is typed at once does what its characters do one by one exactly where the application
allows it. Where it allows a text and then another, the two typed at once do what they do one after
the other exactly if it allows the joined text.
-/
theorem frame_text_iff_allowsText (w : Window σ) :
    (∀ typed, (w.frame [.text typed]).app = w.app.executeAll (actionsOfChars typed.toList) ↔
      w.app.AllowsText typed) ∧
    ∀ typed more, w.app.AllowsText typed → (w.frame [.text typed]).app.AllowsText more →
      (w.frame [.text (typed ++ more)] = (w.frame [.text typed]).frame [.text more] ↔
        w.app.AllowsText (typed ++ more)) := by
  have happ (w : Window σ) (typed : String) :
      (w.frame [.text typed]).app = w.app.executeAll (Keyboard.actionsOfText typed) := by
    simp [frame, Keyboard.actionsOfFrame, Keyboard.actionsOfEvent]
  have hchars (w : Window σ) (typed : String) :
      (w.frame [.text typed]).app = w.app.executeAll (actionsOfChars typed.toList) ↔
        w.app.AllowsText typed := by
    rw [happ, App.executeAll_actionsOfText_eq_iff]
  refine ⟨hchars w, fun typed more htyped hmore => ?_⟩
  have hparts : ((w.frame [.text typed]).frame [.text more]).app =
      w.app.executeAll (actionsOfChars (typed ++ more).toList) := by
    rw [(hchars _ more).2 hmore, (hchars w typed).2 htyped, ← App.executeAll_append,
      String.toList_append, Keyboard.actionsOfChars_append]
  rw [← hchars, ← hparts]
  exact ⟨fun h => congrArg Window.app h, fun h => by simpa [frame] using h⟩

/-- The characters of a key's name, split between two texts, do nothing to an empty line that has
been evaluated, and the name evaluates it once more. -/
theorem frame_text_split_name :
    let w : Window MemoryStore := { app := (App.start {} {}).execute .evaluate }
    w.app.AllowsText "Ent" ∧ (w.frame [.text "Ent"]).app.AllowsText "er" ∧
      w.app.AllowsText ("Ent" ++ "er") ∧
        w.frame [.text ("Ent" ++ "er")] = (w.frame [.text "Ent"]).frame [.text "er"] := by
  intro w
  have hfirst : w.app.AllowsText "Ent" := by decide +kernel
  have hsecond : (w.frame [.text "Ent"]).app.AllowsText "er" := by decide +kernel
  have hjoined : w.app.AllowsText ("Ent" ++ "er") := by decide +kernel
  exact ⟨hfirst, hsecond, hjoined, ((frame_text_iff_allowsText w).2 _ _ hfirst hsecond).2 hjoined⟩

/-- Not every text does what its characters do: one that spells the name of a key evaluates. -/
theorem frame_text_enter_evaluates :
    ¬∀ (w : Window MemoryStore) (typed : String),
      (w.frame [.text typed]).app = w.app.executeAll (actionsOfChars typed.toList) := by
  intro h
  let line : Line := .entries [.digit 2, .operator .add, .digit 3]
  have hsame := congrArg (·.session.display) (h { app := App.start { line } {} } "Enter")
  revert hsame
  decide +kernel

end Window

end SciCalc
