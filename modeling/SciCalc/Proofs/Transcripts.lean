import SciCalc.Proofs.Ledgers

/-!
# The application follows its session

The application is a session with a history beside it, and the history never acts on the session.
The transcript of a session lists the calculations of its actions that evaluate and succeed. What
the history shows is what it showed at first, or nothing once it has been cleared, and then the
transcript of the actions since. Nothing is assumed of the store: any of its operations may fail at
any time and leave anything behind.
-/

set_option autoImplicit false

namespace SciCalc

open History

/-- Whether an action is one of the session; the others concern the history alone. -/
def Action.isOfSession : Action → Bool
  | clearHistory | persistHistory => false
  | _ => true

namespace Session

/-- The session after actions, one after the other. -/
def performAll (s : Session) (actions : List Action) : Session := actions.foldl perform s

/-- The calculation of an action that evaluates and succeeds. -/
def calculation? (s : Session) (a : Action) : Option Calculation :=
  match s.calculate? a with
  | some (.ok c, _) => some c
  | _ => none

/-- The calculations of the actions that evaluate and succeed, in order. -/
def transcript (s : Session) : List Action → List Calculation
  | [] => []
  | a :: actions => (s.calculation? a).toList ++ (s.perform a).transcript actions

/-- An action on the history does nothing to the session. -/
theorem perform_of_isOfSession {a : Action} (h : a.isOfSession = false) (s : Session) :
    s.perform a = s ∧ s.calculation? a = none := by
  cases a with
  | clearHistory => exact ⟨rfl, rfl⟩
  | persistHistory => exact ⟨rfl, rfl⟩
  | _ => cases h

/-- The actions of the session alone lead to the same session. -/
theorem performAll_filter (s : Session) (actions : List Action) :
    s.performAll (actions.filter Action.isOfSession) = s.performAll actions := by
  induction actions generalizing s with
  | nil => rfl
  | cons a actions ih =>
    cases ha : a.isOfSession with
    | true =>
      rw [List.filter_cons_of_pos ha]
      exact ih (s.perform a)
    | false =>
      rw [List.filter_cons_of_neg (by simp [ha]), ih s]
      simp [performAll, (perform_of_isOfSession ha s).1]

/-- The actions of the session alone have the same transcript. -/
theorem transcript_filter (s : Session) (actions : List Action) :
    s.transcript (actions.filter Action.isOfSession) = s.transcript actions := by
  induction actions generalizing s with
  | nil => rfl
  | cons a actions ih =>
    cases ha : a.isOfSession with
    | true => rw [List.filter_cons_of_pos ha, transcript, transcript, ih]
    | false =>
      obtain ⟨hperform, hnone⟩ := perform_of_isOfSession ha s
      rw [List.filter_cons_of_neg (by simp [ha]), ih s, transcript, hperform, hnone]
      rfl

end Session

namespace App

variable {σ : Type}

/-! ## One action -/

/-- Keeping the outcome of a store operation leaves the session and takes the ledger as it is. -/
theorem session_note (app : App σ) (outcome : Except StoreFault Unit × Ledger σ) :
    (app.note outcome).session = app.session ∧ (app.note outcome).ledger = outcome.2 := by
  rcases outcome with ⟨fault | _, ledger⟩ <;> exact ⟨rfl, rfl⟩

variable [Store σ]

/-- Recording a calculation leaves the session and adds its record, whatever the store does. -/
theorem session_record (app : App σ) (c : Calculation) :
    (app.record c).session = app.session ∧
      (app.record c).ledger.records = app.ledger.records ++ [Record.ofCalculation c] := by
  have happend := Ledger.records_append app.ledger (Record.ofCalculation c)
  rw [App.record]
  rcases houtcome : app.ledger.append (Record.ofCalculation c) with ⟨fault | _, ledger⟩
  · rw [houtcome] at happend
    exact ⟨rfl, happend⟩
  · rw [houtcome] at happend
    simp only
    split
    · obtain ⟨hsession, hledger⟩ := session_note app ledger.persist
      refine ⟨hsession, ?_⟩
      rw [hledger, Ledger.records_persist]
      exact happend
    · exact ⟨rfl, happend⟩

/-- The session after an action is that of the session alone. -/
theorem session_execute (app : App σ) (a : Action) :
    (app.execute a).session = app.session.perform a := by
  rw [App.execute, Session.perform]
  rcases app.session.calculate? a with _ | ⟨fault | c, session⟩
  · simp only
    cases a with
    | clearHistory => exact (session_note _ _).1
    | persistHistory => exact (session_note _ _).1
    | _ => rfl
  · rfl
  · exact (session_record _ c).1

/-- An action adds the record of its calculation, and clearing the history removes all records. -/
theorem records_execute (app : App σ) (a : Action) :
    (app.execute a).ledger.records =
      (if a = .clearHistory then [] else app.ledger.records) ++
        (app.session.calculation? a).toList.map Record.ofCalculation := by
  by_cases ha : a = .clearHistory
  · subst ha
    have hclear : (app.execute .clearHistory).ledger = app.ledger.clear.2 := (session_note _ _).2
    rw [hclear]
    rfl
  rw [App.execute, Session.calculation?, if_neg ha]
  rcases app.session.calculate? a with _ | ⟨fault | c, session⟩
  · simp only [Option.toList_none, List.map_nil, List.append_nil]
    cases a with
    | clearHistory => exact absurd rfl ha
    | persistHistory =>
      simp only
      rw [(session_note _ _).2, Ledger.records_persist]
    | _ => rfl
  · simp
  · exact (session_record _ c).2

/-! ## All actions -/

/-- The session after actions is that of the session alone. -/
theorem session_executeAll (app : App σ) (actions : List Action) :
    (app.executeAll actions).session = app.session.performAll actions := by
  induction actions generalizing app with
  | nil => rfl
  | cons a actions ih =>
    show ((app.execute a).executeAll actions).session = _
    rw [ih, session_execute]
    rfl

/-- Until the history is cleared the transcript is added to it. -/
theorem records_executeAll (app : App σ) {actions : List Action}
    (h : Action.clearHistory ∉ actions) :
    (app.executeAll actions).ledger.records =
      app.ledger.records ++ (app.session.transcript actions).map Record.ofCalculation := by
  induction actions generalizing app with
  | nil => exact (List.append_nil _).symm
  | cons a actions ih =>
    obtain ⟨ha, hactions⟩ := not_or.1 (mt List.mem_cons.2 h)
    show ((app.execute a).executeAll actions).ledger.records = _
    rw [ih _ hactions, records_execute, if_neg (Ne.symm ha), session_execute, Session.transcript,
      List.map_append, List.append_assoc]

/--
Whatever the store does, the session is the one that its own actions lead to, and the history shows
what it showed at first, or nothing if it has been cleared, and then one record for each calculation
that has succeeded since, in order.
-/
theorem executeAll_follows_session (app : App σ) (actions : List Action) :
    (app.executeAll actions).session =
        app.session.performAll (actions.filter Action.isOfSession) ∧
      (Action.clearHistory ∉ actions →
        (app.executeAll actions).ledger.records =
          app.ledger.records ++
            (app.session.transcript (actions.filter Action.isOfSession)).map
              Record.ofCalculation) ∧
      ∀ before after, actions = before ++ .clearHistory :: after → Action.clearHistory ∉ after →
        (app.executeAll actions).ledger.records =
          ((app.session.performAll (before.filter Action.isOfSession)).transcript
            (after.filter Action.isOfSession)).map Record.ofCalculation := by
  simp only [Session.performAll_filter, Session.transcript_filter]
  refine ⟨session_executeAll app actions, records_executeAll app, ?_⟩
  rintro before after rfl hafter
  -- The clearing cuts the run in two: nothing is shown behind it, and the session goes on.
  have hcleared : ((app.executeAll before).execute .clearHistory).ledger.records = [] :=
    records_execute _ .clearHistory
  have hsession : ((app.executeAll before).execute .clearHistory).session =
      app.session.performAll before := by
    rw [session_execute, session_executeAll]
    rfl
  have hrun : app.executeAll (before ++ .clearHistory :: after) =
      ((app.executeAll before).execute .clearHistory).executeAll after :=
    executeAll_append app before (.clearHistory :: after)
  rw [hrun, records_executeAll _ hafter, hcleared, hsession, List.nil_append]

/-- Over a store that fails once it is loaded, a reciprocal is shown until the clearing. -/
theorem executeAll_follows_session_over_failing_store :
    let store : Unreliable MemoryStore :=
      { store := { values := [(storeKey, "[\"1+1 = 2\"]")] }
        schedule := fun n => if n = 0 then none else some (.unavailable "quota") }
    let before : List Action := [.enter (.digit 4), .takeReciprocal]
    let after : List Action := [.clear, .enter (.digit 7), .evaluate, .clear, .evaluate]
    Action.clearHistory ∉ before ∧
      ((start {} store).executeAll before).ledger.records = [⟨"1+1", "2"⟩, ⟨"1/(4)", "0.25"⟩] ∧
      Action.clearHistory ∉ after ∧
      ((start {} store).executeAll (before ++ .clearHistory :: after)).ledger.records =
        [⟨"7", "7"⟩] := by
  intro store before after
  have hbefore : Action.clearHistory ∉ before := by decide +kernel
  have hafter : Action.clearHistory ∉ after := by decide +kernel
  refine ⟨hbefore, ?_, hafter, ?_⟩
  · rw [(executeAll_follows_session (start {} store) before).2.1 hbefore]
    decide +kernel
  · rw [(executeAll_follows_session (start {} store) _).2.2 before after rfl hafter]
    decide +kernel

end App

end SciCalc
