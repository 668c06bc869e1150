import Mathlib.Data.List.DropRight
import SciCalc.Proofs.Typing

/-!
# Cutting the keys into frames

The events of the keyboard arrive in frames, and how they are cut into frames should not matter. It
does not for all keys but the escape key, which clears the line before anything else in its frame is
done. Keys edit the line or evaluate it. While they only edit it, nothing counts but what they leave
on it, and in front of a clearing not even that. So the keys of a frame do what they do in order if
those before its last escape do not evaluate and leave nothing on an empty line that would show
behind it. For a frame without an evaluation nothing less will do.
-/

set_option autoImplicit false

namespace SciCalc

/-! ## Editing the line -/

/-- Whether an action edits the line. -/
def Action.isEdit : Action → Bool
  | enter _ | deleteLast | clear => true
  | _ => false

/-- The entries after an action that edits the line; the others leave them. -/
def Entry.editAll (es : List Entry) : Action → List Entry
  | .enter e => es ++ [e]
  | .deleteLast => es.dropLast
  | .clear => []
  | _ => es

namespace App

variable {σ : Type}

/-- The application with entries on its line. -/
def withEntries (app : App σ) (es : List Entry) : App σ :=
  { app with session := { app.session with line := .entries es } }

/-- Only the last line that is put in counts. -/
@[simp] theorem withEntries_withEntries (app : App σ) (es fs : List Entry) :
    (app.withEntries es).withEntries fs = app.withEntries fs := rfl

/-- Only what stands on the line makes a difference. -/
theorem withEntries_inj {app : App σ} {es fs : List Entry} :
    app.withEntries es = app.withEntries fs ↔ es = fs :=
  ⟨fun h => Line.entries.inj (congrArg (·.session.line) h), congrArg app.withEntries⟩

variable [Store σ]

/-- An action that edits the line leaves the rest. -/
theorem execute_of_isEdit {a : Action} (h : a.isEdit = true) (app : App σ) :
    app.execute a = app.withEntries (Entry.editAll app.session.line.toList a) := by
  cases a with
  | enter e => exact execute_of_edit app rfl rfl
  | deleteLast => exact execute_deleteLast app
  | clear => exact execute_clear app
  | _ => cases h

variable {as : List Action} (h : ∀ a ∈ as, a.isEdit = true)

include h

/-- Actions that edit the line leave the rest. -/
theorem executeAll_withEntries (app : App σ) (es : List Entry) :
    (app.withEntries es).executeAll as = app.withEntries (as.foldl Entry.editAll es) := by
  induction as generalizing es with
  | nil => rfl
  | cons a as ih =>
    have hfirst : (app.withEntries es).execute a = app.withEntries (Entry.editAll es a) :=
      execute_of_isEdit (h a (by simp)) _
    rw [executeAll_cons, hfirst, ih fun b hb => h b (by simp [hb])]
    rfl

/-- A clearing leaves nothing of the edits before it. -/
theorem execute_clear_executeAll (app : App σ) :
    (app.executeAll as).execute .clear = app.withEntries [] := by
  induction as generalizing app with
  | nil => exact execute_clear app
  | cons a as ih =>
    rw [executeAll_cons, ih fun b hb => h b (by simp [hb]), execute_of_isEdit (h a (by simp)),
      withEntries_withEntries]

end App

namespace Keyboard

/-! ## The actions of the keys -/

/-- The actions of an event that stands alone. -/
def actionsAlone : Event → List Action
  | .pressEscape => [.clear]
  | event => actionsOfEvent event

/-- The actions of events in their order of arrival. -/
def actionsInOrder (events : List Event) : List Action := events.flatMap actionsAlone

/-- Joined events act one part after the other. -/
theorem actionsInOrder_append (events more : List Event) :
    actionsInOrder (events ++ more) = actionsInOrder events ++ actionsInOrder more :=
  List.flatMap_append

/-- A key edits the line or evaluates it. -/
theorem isEdit_of_action? {key : String} {a : Action} (h : action? key = some a)
    (ha : a ≠ .evaluate) : a.isEdit = true := by
  rcases action?_eq_some h with ⟨rfl, -⟩ | ⟨rfl, -⟩ | ⟨rfl, -⟩ | ⟨e, c, rfl, -⟩
  · exact absurd rfl ha
  · rfl
  · rfl
  · rfl

/-- An event edits the line or evaluates it. -/
theorem isEdit_of_mem {event : Event} {a : Action} (h : a ∈ actionsOfEvent event)
    (ha : a ≠ .evaluate) : a.isEdit = true := by
  cases event with
  | text typed =>
    rw [actionsOfEvent, actionsOfText] at h
    split at h
    case h_1 b hb =>
      obtain rfl := List.mem_singleton.1 h
      exact isEdit_of_action? hb ha
    case h_2 =>
      obtain ⟨c, -, hc⟩ := List.mem_filterMap.1 h
      exact isEdit_of_action? hc ha
  | pressEnter =>
    exact isEdit_of_action? (show action? "Enter" = some a from Option.mem_toList.1 h) ha
  | pressBackspace =>
    exact isEdit_of_action? (show action? "Backspace" = some a from Option.mem_toList.1 h) ha
  | pressEscape => cases h

/-- The events up to the last escape. -/
def throughEscape (events : List Event) : List Event :=
  events.rdropWhile fun event => decide (event ≠ .pressEscape)

/-- The events behind the last escape. -/
def behindEscape (events : List Event) : List Event :=
  events.rtakeWhile fun event => decide (event ≠ .pressEscape)

/-- The entries that events leave on an empty line until it is evaluated first. -/
def entered (events : List Event) : List Entry :=
  ((events.flatMap actionsOfEvent).takeWhile fun a => decide (a ≠ .evaluate)).foldl
    Entry.editAll []

/--
What stands before the last escape does not evaluate, and on an empty line it makes no difference to
what the events behind the escape leave there.
-/
structure EscapeInTime (events : List Event) : Prop where
  no_evaluation : Action.evaluate ∉ (throughEscape events).flatMap actionsOfEvent
  entered_eq : entered events = entered (behindEscape events)

/-- Whether the escape comes in time can be computed. -/
instance (events : List Event) : Decidable (EscapeInTime events) :=
  decidable_of_iff
    (Action.evaluate ∉ (throughEscape events).flatMap actionsOfEvent ∧
      entered events = entered (behindEscape events))
    ⟨fun h => ⟨h.1, h.2⟩, fun h => ⟨h.1, h.2⟩⟩

/-- Without an escape all events stand behind the last one. -/
theorem behindEscape_of_not_mem {events : List Event} (h : .pressEscape ∉ events) :
    throughEscape events = [] ∧ behindEscape events = events := by
  have hall : ∀ event ∈ events, decide (event ≠ Event.pressEscape) = true := fun event hmem =>
    decide_eq_true fun hescape => h (hescape ▸ hmem)
  exact ⟨List.rdropWhile_eq_nil_iff.2 hall, List.rtakeWhile_eq_self_iff.2 hall⟩

/-- No escape stands behind the last one. -/
theorem not_mem_behindEscape (events : List Event) : .pressEscape ∉ behindEscape events :=
  fun h => by simpa using List.mem_rtakeWhile_imp h

/-- Events with an escape are what stands before their last one, it, and what stands behind it. -/
theorem exists_throughEscape {events : List Event} (h : .pressEscape ∈ events) :
    ∃ before, throughEscape events = before ++ [.pressEscape] ∧
      events = before ++ .pressEscape :: behindEscape events := by
  have hne : throughEscape events ≠ [] := fun hnil => by
    simpa using List.rdropWhile_eq_nil_iff.1 hnil _ h
  have hlast : (throughEscape events).getLast hne = .pressEscape :=
    not_not.1 fun hother => List.rdropWhile_last_not _ _ hne (decide_eq_true hother)
  have hthrough := List.dropLast_append_getLast hne
  rw [hlast] at hthrough
  refine ⟨_, hthrough.symm, ?_⟩
  rw [← List.singleton_append, ← List.append_assoc, hthrough]
  exact List.rdropWhile_append_rtakeWhile.symm

/-- Events without an escape mean the same in any order of their escapes. -/
theorem actionsInOrder_of_not_mem {events : List Event} (h : .pressEscape ∉ events) :
    actionsInOrder events = events.flatMap actionsOfEvent := by
  refine List.flatMap_congr fun event hmem => ?_
  cases event with
  | pressEscape => exact absurd hmem h
  | _ => rfl

/-- Events that do not evaluate edit the line, in order and without their escapes. -/
theorem isEdit_of_no_evaluation {events : List Event}
    (h : Action.evaluate ∉ events.flatMap actionsOfEvent) :
    (∀ a ∈ events.flatMap actionsOfEvent, a.isEdit = true) ∧
      ∀ a ∈ actionsInOrder events, a.isEdit = true := by
  have hedit (event : Event) (hevent : event ∈ events) (a : Action)
      (ha : a ∈ actionsOfEvent event) : a.isEdit = true :=
    isEdit_of_mem ha fun heq => h (List.mem_flatMap.2 ⟨event, hevent, heq ▸ ha⟩)
  refine ⟨fun a ha => ?_, fun a ha => ?_⟩
  · obtain ⟨event, hevent, ha⟩ := List.mem_flatMap.1 ha
    exact hedit event hevent a ha
  · obtain ⟨event, hevent, ha⟩ := List.mem_flatMap.1 ha
    cases event with
    | pressEscape =>
      obtain rfl := List.mem_singleton.1 ha
      rfl
    | _ => exact hedit _ hevent a ha

/-- The actions behind the last escape, from the first evaluation on. -/
def unentered (events : List Event) : List Action :=
  ((behindEscape events).flatMap actionsOfEvent).dropWhile fun a => decide (a ≠ .evaluate)

/-- What edits that do not evaluate leave on the line, before the first evaluation of others. -/
theorem entered_append {events : List Event}
    (h : Action.evaluate ∉ events.flatMap actionsOfEvent) (more : List Event) :
    entered (events ++ more) =
      ((more.flatMap actionsOfEvent).takeWhile fun a => decide (a ≠ .evaluate)).foldl
        Entry.editAll ((events.flatMap actionsOfEvent).foldl Entry.editAll []) := by
  have hall : ∀ a ∈ events.flatMap actionsOfEvent, decide (a ≠ .evaluate) = true :=
    fun a ha => decide_eq_true fun heq => h (heq ▸ ha)
  rw [entered, List.flatMap_append, List.takeWhile_append_of_pos hall, List.foldl_append]

end Keyboard

namespace App

variable {σ : Type} [Store σ]

open Keyboard (Event actionsOfEvent)

/-- Events edit the line until it is evaluated first. -/
theorem executeAll_until_evaluation (app : App σ) (es : List Entry) (events : List Event) :
    (app.withEntries es).executeAll (events.flatMap actionsOfEvent) =
      (app.withEntries
        (((events.flatMap actionsOfEvent).takeWhile fun a => decide (a ≠ .evaluate)).foldl
          Entry.editAll es)).executeAll
        ((events.flatMap actionsOfEvent).dropWhile fun a => decide (a ≠ .evaluate)) := by
  have hedits : ∀ a ∈ (events.flatMap actionsOfEvent).takeWhile fun a => decide (a ≠ .evaluate),
      a.isEdit = true := fun a ha => by
    obtain ⟨event, -, hevent⟩ := List.mem_flatMap.1 ((List.takeWhile_prefix _).subset ha)
    exact Keyboard.isEdit_of_mem hevent (by simpa using List.mem_takeWhile_imp ha)
  rw [← executeAll_withEntries hedits, ← executeAll_append, List.takeWhile_append_dropWhile]

end App

namespace Window

open Keyboard (EscapeInTime actionsInOrder actionsOfEvent behindEscape entered throughEscape
  unentered)

variable {σ : Type} [Store σ]

/-! ## Frames -/

/-- Without an escape the keys of a frame do what they do in order. -/
theorem app_frame_of_not_mem (w : Window σ) {events : List Keyboard.Event}
    (h : .pressEscape ∉ events) :
    (w.frame events).app = w.app.executeAll (actionsInOrder events) := by
  rw [frame, Keyboard.actionsOfFrame, if_neg h, Keyboard.actionsInOrder_of_not_mem h]
  rfl

/--
Where nothing evaluates before the last escape, a frame and its keys in order differ in what stands
on the line when it is evaluated first, and in nothing else.
-/
theorem app_frame_of_mem (w : Window σ) {events : List Keyboard.Event}
    (hmem : .pressEscape ∈ events)
    (h : Action.evaluate ∉ (throughEscape events).flatMap actionsOfEvent) :
    (w.frame events).app = (w.app.withEntries (entered events)).executeAll (unentered events) ∧
      w.app.executeAll (actionsInOrder events) =
        (w.app.withEntries (entered (behindEscape events))).executeAll (unentered events) := by
  obtain ⟨before, hthrough, hevents⟩ := Keyboard.exists_throughEscape hmem
  have hbehind := Keyboard.not_mem_behindEscape events
  rw [unentered]
  generalize behindEscape events = after at hevents hbehind ⊢
  have hdrops : (before ++ .pressEscape :: after).flatMap actionsOfEvent =
      (before ++ after).flatMap actionsOfEvent := by simp [actionsOfEvent]
  have hbefore : Action.evaluate ∉ before.flatMap actionsOfEvent := by
    simpa [hthrough, actionsOfEvent] using h
  obtain ⟨hplain, hordered⟩ := Keyboard.isEdit_of_no_evaluation hbefore
  subst hevents
  constructor
  · have hclear : (w.frame (before ++ .pressEscape :: after)).app =
        (w.app.execute .clear).executeAll ((before ++ after).flatMap actionsOfEvent) := by
      rw [frame, Keyboard.actionsOfFrame, if_pos hmem, hdrops]
      rfl
    have hentered : entered (before ++ .pressEscape :: after) = entered (before ++ after) := by
      rw [entered, hdrops, entered]
    rw [hclear, App.execute_clear, List.flatMap_append, App.executeAll_append, hentered,
      Keyboard.entered_append hbefore]
    show ((w.app.withEntries []).executeAll _).executeAll _ = _
    rw [App.executeAll_withEntries hplain, App.executeAll_until_evaluation]
  · have horder : w.app.executeAll (actionsInOrder (before ++ .pressEscape :: after)) =
        ((w.app.executeAll (actionsInOrder before)).execute .clear).executeAll
          (actionsInOrder after) := by
      rw [Keyboard.actionsInOrder_append, App.executeAll_append]
      rfl
    rw [horder, App.execute_clear_executeAll hordered, Keyboard.actionsInOrder_of_not_mem hbehind,
      App.executeAll_until_evaluation, entered]

/-- The keys of a frame whose escape comes in time do what they do in order. -/
theorem app_frame_of_escapeInTime (w : Window σ) {events : List Keyboard.Event}
    (h : EscapeInTime events) :
    (w.frame events).app = w.app.executeAll (actionsInOrder events) := by
  by_cases hmem : .pressEscape ∈ events
  · obtain ⟨hframe, horder⟩ := app_frame_of_mem w hmem h.no_evaluation
    rw [hframe, horder, h.entered_eq]
  · exact app_frame_of_not_mem w hmem

/-- The keys of a frame without an evaluation do what they do in order only if its escape comes in
time. -/
theorem escapeInTime_of_app_frame (w : Window σ) {events : List Keyboard.Event}
    (hedits : Action.evaluate ∉ events.flatMap actionsOfEvent)
    (h : (w.frame events).app = w.app.executeAll (actionsInOrder events)) :
    EscapeInTime events := by
  by_cases hmem : .pressEscape ∈ events
  · have hsub {part : List Keyboard.Event} (hpart : part ⊆ events) :
        Action.evaluate ∉ part.flatMap actionsOfEvent := fun hevaluate => by
      obtain ⟨event, hevent, ha⟩ := List.mem_flatMap.1 hevaluate
      exact hedits (List.mem_flatMap.2 ⟨event, hpart hevent, ha⟩)
    have hthrough : Action.evaluate ∉ (throughEscape events).flatMap actionsOfEvent :=
      hsub (List.rdropWhile_prefix _ _).subset
    have hnone : unentered events = [] := by
      have hbehind : Action.evaluate ∉ (behindEscape events).flatMap actionsOfEvent :=
        hsub (List.rtakeWhile_suffix _ _).subset
      rw [unentered, List.dropWhile_eq_nil_iff]
      exact fun a ha => decide_eq_true fun heq => hbehind (heq ▸ ha)
    obtain ⟨hframe, horder⟩ := app_frame_of_mem w hmem hthrough
    rw [hframe, horder, hnone] at h
    exact ⟨hthrough, App.withEntries_inj.1 h⟩
  · obtain ⟨hthrough, hbehind⟩ := Keyboard.behindEscape_of_not_mem hmem
    exact ⟨by simp [hthrough], by rw [hbehind]⟩

/--
However the keys are cut into frames, they do what they do in their order of arrival, if in each
frame the escape comes in time; and no frame without an evaluation does so otherwise. Whether a
frame with an evaluation can do so otherwise is left open.
-/
theorem frames_follow_order_of_escapeInTime (w : Window σ) :
    (∀ frames : List (List Keyboard.Event), (∀ events ∈ frames, EscapeInTime events) →
      (frames.foldl frame w).app = w.app.executeAll (actionsInOrder frames.flatten)) ∧
    ∀ events : List Keyboard.Event, Action.evaluate ∉ events.flatMap actionsOfEvent →
      ((w.frame events).app = w.app.executeAll (actionsInOrder events) ↔
        EscapeInTime events) := by
  constructor
  · intro frames h
    induction frames generalizing w with
    | nil => rfl
    | cons events frames ih =>
      rw [List.foldl_cons, ih _ fun more hmore => h more (by simp [hmore]),
        app_frame_of_escapeInTime w (h events (by simp)), List.flatten_cons,
        Keyboard.actionsInOrder_append, App.executeAll_append]
  · exact fun events hedits =>
      ⟨escapeInTime_of_app_frame w hedits, app_frame_of_escapeInTime w⟩

/-- What is typed and deleted again before an escape of its frame makes no difference, nor does a
key that clears the line behind it. -/
theorem frames_follow_order_of_deleted_digits :
    let w : Window MemoryStore := { app := App.start {} {} }
    let frames : List (List Keyboard.Event) :=
      [[.text "7+"], [.text "12", .pressEscape, .pressBackspace, .text "c2*", .text "3="],
        [.text "=", .pressEnter]]
    (∀ events ∈ frames, EscapeInTime events) ∧
      (frames.foldl frame w).app = w.app.executeAll (actionsInOrder frames.flatten) ∧
      Action.evaluate ∉ ([.text "1", .pressBackspace, .pressEscape] : List Keyboard.Event).flatMap
        actionsOfEvent ∧
      (w.frame [.text "1", .pressBackspace, .pressEscape]).app =
        w.app.executeAll (actionsInOrder [.text "1", .pressBackspace, .pressEscape]) := by
  intro w frames
  have hframes : ∀ events ∈ frames, EscapeInTime events := by decide +kernel
  have hedits : Action.evaluate ∉
      ([.text "1", .pressBackspace, .pressEscape] : List Keyboard.Event).flatMap
        actionsOfEvent := by decide +kernel
  have hevents : EscapeInTime [.text "1", .pressBackspace, .pressEscape] := by decide +kernel
  exact ⟨hframes, (frames_follow_order_of_escapeInTime w).1 frames hframes, hedits,
    ((frames_follow_order_of_escapeInTime w).2 _ hedits).2 hevents⟩

/-- Not all frames do what their keys do in order: a digit survives the escape pressed behind it. -/
theorem frames_lose_order_of_escape :
    ¬∀ (w : Window MemoryStore) (frames : List (List Keyboard.Event)),
      (frames.foldl frame w).app = w.app.executeAll (actionsInOrder frames.flatten) := by
  intro h
  have hsame := congrArg (·.session.display)
    (h { app := App.start {} {} } [[.text "1", .pressEscape]])
  revert hsame
  decide +kernel

end Window

end SciCalc
