import SciCalc.Proofs.Transcripts

/-!
# What a session remembers of a run

Every part of a session is written by few of its actions and kept by all others. The memory is
written by its own keys, the angle mode by the angle key, and the rounding by none. The last result
is that of the latest calculation, and the working that of the latest whole line with a value. An
evaluation that fails writes nothing but the line.

The line of a session is either entries or a fault. That loses nothing: a session that keeps its
entries and its fault apart, and where any key might leave one standing beside the other, never
shows a fault beside entries, and is the same session at every moment.
-/

set_option autoImplicit false

namespace SciCalc

/-- Whether an action evaluates the line. -/
def Action.evaluates : Action → Bool
  | evaluate | takeRoot | takeReciprocal | takeSquare | takeFactorial => true
  | _ => false

/-- Whether an action writes the memory. -/
def Action.writesMemory : Action → Bool
  | addToMemory | subtractFromMemory | clearMemory => true
  | _ => false

namespace Session

variable {s : Session} {a : Action}

/-! ## Evaluating actions -/

/-- The working that an action makes: that of the whole line, if it is evaluated and has a value. -/
def working? (s : Session) (a : Action) : Option Working :=
  if a = .evaluate then (evaluateWithWorking s.line.source s.context).toOption.map Prod.snd
  else none

/-- An action that calculates evaluates the line. -/
theorem evaluates_of_calculate? {p : Except Fault Calculation × Session}
    (h : s.calculate? a = some p) : a.evaluates = true := by
  cases a with
  | evaluate | takeRoot | takeReciprocal | takeSquare | takeFactorial => rfl
  | _ => cases h

/-- An action that evaluates the line edits nothing. -/
theorem edit_of_evaluates (h : a.evaluates = true) (s : Session) : s.edit a = s := by
  cases a with
  | evaluate | takeRoot | takeReciprocal | takeSquare | takeFactorial => rfl
  | _ => cases h

/-- Concluding tells the outcome as it is. -/
theorem conclude_eq (s : Session) (outcome : Except Fault Calculation) :
    s.conclude outcome = (outcome, (s.conclude outcome).2) := by
  cases outcome <;> rfl

/-- Every evaluating action concludes with its outcome, and keeps the working that it makes. -/
theorem after_calculate? {outcome : Except Fault Calculation} {after : Session}
    (h : s.calculate? a = some (outcome, after)) :
    after = (({ s with working := (s.working? a).or s.working } : Session).conclude outcome).2 := by
  have hconclude {o : Except Fault Calculation} (h : some (s.conclude o) = some (outcome, after)) :
      after = (s.conclude outcome).2 := by
    rw [conclude_eq, Option.some_inj, Prod.mk.injEq] at h
    rw [← h.1, h.2]
  -- The key of the whole line writes its working first; the others conclude at once.
  cases a with
  | evaluate =>
    simp only [calculate?, evaluateLine, Option.some_inj] at h
    rw [working?, if_pos rfl]
    split at h
    case h_1 v w hline =>
      rw [hline]
      cases h
      rfl
    case h_2 fault hline =>
      rw [hline]
      cases h
      rfl
  | takeRoot => exact hconclude h
  | takeReciprocal => exact hconclude h
  | takeSquare => exact hconclude h
  | takeFactorial => exact hconclude h
  | _ => cases h

/-- An evaluation that fails makes no working. -/
theorem working?_of_error {fault : Fault} {after : Session}
    (h : s.calculate? a = some (.error fault, after)) : s.working? a = none := by
  rw [working?]
  split
  case isTrue ha =>
    subst ha
    simp only [calculate?, evaluateLine, Option.some_inj] at h
    split at h
    case h_1 => cases h
    case h_2 fault' hline =>
      rw [hline]
      rfl
  case isFalse => rfl

/-- An evaluation that fails leaves its fault in place of the line, and nothing else. -/
theorem after_error {fault : Fault} {after : Session}
    (h : s.calculate? a = some (.error fault, after)) :
    after = { s with line := .failed fault } := by
  rw [after_calculate? h, working?_of_error h]
  rfl

/-- An evaluation that succeeds leaves its result on the line and as the last one. -/
theorem after_ok {c : Calculation} {after : Session} (h : s.calculate? a = some (.ok c, after)) :
    after =
      { line := .entries [.number c.result]
        context := { s.context with lastResult := c.result }
        working := (s.working? a).or s.working } := by
  rw [after_calculate? h]
  rfl

/-- What is concluded takes the place of the line, whatever the line was. -/
theorem conclude_congr {t : Session} (hcontext : s.context = t.context)
    (hworking : s.working = t.working) (outcome : Except Fault Calculation) :
    s.conclude outcome = t.conclude outcome := by
  cases outcome <;> simp only [conclude, hcontext, hworking]

/-- An evaluation takes no more of the line than its entries. -/
theorem calculate?_congr {t : Session} (hentries : s.line.toList = t.line.toList)
    (hcontext : s.context = t.context) (hworking : s.working = t.working) (a : Action) :
    s.calculate? a = t.calculate? a := by
  have hsource : s.line.source = t.line.source := by rw [Line.source, Line.source, hentries]
  have hconclude := conclude_congr hcontext hworking
  cases a with
  | evaluate =>
    simp only [calculate?, evaluateLine, hsource, hcontext, hentries]
    rcases evaluateWithWorking t.line.source t.context with fault | ⟨v, w⟩
    · exact congrArg some (hconclude _)
    · exact congrArg some (conclude_congr rfl rfl _)
  | takeRoot => simp only [calculate?, takeRoot, hsource, hcontext, hconclude]
  | takeReciprocal => simp only [calculate?, takeReciprocal, hsource, hcontext, hconclude]
  | takeSquare => simp only [calculate?, takeSquare, hsource, hcontext, hentries, hconclude]
  | takeFactorial => simp only [calculate?, takeFactorial, hsource, hcontext, hconclude]
  | _ => rfl

/-- The value of the line takes no more of the line than its entries. -/
theorem lineValue_congr {t : Session} (hentries : s.line.toList = t.line.toList)
    (hcontext : s.context = t.context) : s.lineValue = t.lineValue := by
  rw [lineValue, lineValue, Line.source, Line.source, hentries, hcontext]

/-- The calculation of an action is the outcome of its evaluation. -/
theorem calculation?_eq_some_iff {c : Calculation} :
    s.calculation? a = some c ↔ ∃ after, s.calculate? a = some (.ok c, after) := by
  rw [calculation?]
  rcases s.calculate? a with _ | ⟨fault | c', after⟩ <;> simp

/-! ## Any action -/

/-- What an action does to the context: it keeps its result there, or it edits the context. -/
theorem context_perform (s : Session) (a : Action) :
    (s.perform a).context =
      match s.calculation? a with
      | some c => { s.context with lastResult := c.result }
      | none => (s.edit a).context := by
  rw [perform, calculation?]
  rcases hcalculate : s.calculate? a with _ | ⟨fault | c, after⟩
  · rfl
  · rw [after_error hcalculate, edit_of_evaluates (evaluates_of_calculate? hcalculate)]
  · rw [after_ok hcalculate]

/-- What an action does to the working: it makes one, or it keeps what there is. -/
theorem working_perform (s : Session) (a : Action) :
    (s.perform a).working = (s.working? a).or s.working := by
  rw [perform]
  rcases hcalculate : s.calculate? a with _ | ⟨fault | c, after⟩
  · have hnone : s.working? a = none := by
      rw [working?]
      split
      case isTrue ha =>
        subst ha
        cases hcalculate
      case isFalse => rfl
    rw [hnone]
    cases a <;> rfl
  · rw [after_error hcalculate, working?_of_error hcalculate]
    rfl
  · rw [after_ok hcalculate]

/-- An action that does not write the memory keeps it. -/
theorem memory_perform (s : Session) (h : a.writesMemory = false) :
    (s.perform a).context.memory = s.context.memory := by
  rw [context_perform]
  split
  · rfl
  · cases a with
    | addToMemory | subtractFromMemory | clearMemory => cases h
    | _ => rfl

/-- An action other than the angle key keeps the angle mode. -/
theorem angles_perform (s : Session) (h : a ≠ .toggleAngles) :
    (s.perform a).context.angles = s.context.angles := by
  rw [context_perform]
  split
  · rfl
  · cases a with
    | toggleAngles => exact absurd rfl h
    | _ => rfl

/-- Every action keeps the rounding. -/
theorem rounding_perform (s : Session) (a : Action) :
    (s.perform a).context.rounding = s.context.rounding := by
  rw [context_perform]
  split
  · rfl
  · cases a <;> rfl

/-- An action keeps the last result unless it calculates one. -/
theorem lastResult_perform (s : Session) (a : Action) :
    (s.perform a).context.lastResult =
      ((s.calculation? a).map Calculation.result).getD s.context.lastResult := by
  rw [context_perform]
  rcases s.calculation? a with _ | c
  · cases a <;> rfl
  · rfl

/-! ## Runs -/

section

variable {β γ : Type} (part : Session → β)

/-- A part that every action of a run keeps is kept by the run. -/
theorem performAll_keeps {Keeps : Action → Prop}
    (hstep : ∀ s a, Keeps a → part (s.perform a) = part s) (s : Session) {actions : List Action}
    (h : ∀ a ∈ actions, Keeps a) : part (s.performAll actions) = part s := by
  induction actions generalizing s with
  | nil => rfl
  | cons a actions ih =>
    have hrest := ih (s.perform a) fun b hb => h b (List.mem_cons_of_mem _ hb)
    exact hrest.trans (hstep s a (h a List.mem_cons_self))

/-- What the actions of a run make, in order. -/
def made (make? : Session → Action → Option γ) (s : Session) : List Action → List γ
  | [] => []
  | a :: actions => (make? s a).toList ++ (s.perform a).made make? actions

/-- A part that is replaced by whatever an action makes holds the latest that a run has made. -/
theorem performAll_latest {make? : Session → Action → Option γ} (keep : γ → β)
    (hstep : ∀ s a, part (s.perform a) = ((make? s a).map keep).getD (part s)) (s : Session)
    (actions : List Action) :
    part (s.performAll actions) = ((s.made make? actions).getLast?.map keep).getD (part s) := by
  induction actions generalizing s with
  | nil => rfl
  | cons a actions ih =>
    have hrest : part (s.performAll (a :: actions)) = part ((s.perform a).performAll actions) := rfl
    rw [hrest, ih, hstep, made, List.getLast?_append]
    cases ((s.perform a).made make? actions).getLast? <;> cases make? s a <;> rfl

end

/-- A transcript is what is calculated. -/
theorem transcript_eq_made (s : Session) (actions : List Action) :
    s.transcript actions = s.made calculation? actions := by
  induction actions generalizing s with
  | nil => rfl
  | cons a actions ih => rw [transcript, made, ih]

/-- The workings of the whole lines that are evaluated and have a value, in order. -/
def workings (s : Session) (actions : List Action) : List Working := s.made working? actions

end Session

/-! ## Entries and fault apart -/

/-- A session that keeps the entries of its line and the fault it shows apart. -/
structure ApartSession where
  entries : List Entry := []
  shown : Option Fault := none
  context : Context := {}
  working : Option Working := none

namespace ApartSession

/-- The session with these entries on its line. -/
def onEntries (p : ApartSession) : Session where
  line := .entries p.entries
  context := p.context
  working := p.working

/-- The session that shows the fault, if there is one, and otherwise the entries. -/
def joined (p : ApartSession) : Session where
  line := match p.shown with
    | some fault => .failed fault
    | none => .entries p.entries
  context := p.context
  working := p.working

/-- Adds an entry and shows no fault any more. -/
def enter (p : ApartSession) (e : Entry) : ApartSession :=
  { p with entries := p.entries ++ [e], shown := none }

/-- The session after an action that does not evaluate. -/
def edit (p : ApartSession) : Action → ApartSession
  | .enter e => p.enter e
  | .recallMemory => p.enter (.number p.context.memory)
  | .deleteLast =>
    -- A fault goes first, and the entries stay.
    if p.shown.isSome then { p with shown := none } else { p with entries := p.entries.dropLast }
  | .clear => { p with entries := [], shown := none }
  | a => { p with context := (p.onEntries.edit a).context }

/-- The session after an action; each writes the entries and the fault as two fields. -/
def perform (p : ApartSession) (a : Action) : ApartSession :=
  match p.onEntries.calculate? a with
  | some (.ok c, after) =>
    { entries := [.number c.result]
      shown := none
      context := { p.context with lastResult := c.result }
      working := after.working }
  | some (.error fault, _) => { p with entries := [], shown := some fault }
  | none => p.edit a

/-- The session after actions, one after the other. -/
def performAll (p : ApartSession) (actions : List Action) : ApartSession := actions.foldl perform p

/-- No fault is shown beside entries. -/
def Tidy (p : ApartSession) : Prop := p.shown.isSome = true → p.entries = []

/-- Where no fault is shown there is nothing to keep tidy. -/
theorem tidy_of_none {p : ApartSession} (h : p.shown = none) : p.Tidy := by
  intro hsome
  rw [h] at hsome
  cases hsome

/-- The entries of a tidy session are those of the joined line. -/
theorem toList_joined {p : ApartSession} (h : p.Tidy) : p.joined.line.toList = p.entries := by
  rw [joined]
  cases hshown : p.shown with
  | none => rfl
  | some fault => exact (h (by rw [hshown]; rfl)).symm

/-- Editing keeps a session tidy, and is the same once entries and fault are joined. -/
theorem edit_joined {p : ApartSession} (h : p.Tidy) (a : Action) :
    (p.edit a).Tidy ∧ (p.edit a).joined = p.joined.edit a := by
  have hentries := toList_joined h
  have henter (e : Entry) : (p.enter e).Tidy ∧ (p.enter e).joined = p.joined.enter e := by
    refine ⟨tidy_of_none rfl, ?_⟩
    rw [Session.enter, hentries]
    rfl
  have hvalue : p.onEntries.lineValue = p.joined.lineValue :=
    Session.lineValue_congr hentries.symm rfl
  cases a with
  | enter e => exact henter e
  | recallMemory => exact henter _
  | deleteLast =>
    rw [edit, Session.edit, Session.deleteLast, hentries]
    cases hshown : p.shown with
    | none =>
      refine ⟨tidy_of_none (by simp), ?_⟩
      simp [joined, hshown]
    | some fault =>
      refine ⟨tidy_of_none rfl, ?_⟩
      simp [joined, h (by rw [hshown]; rfl)]
  | clear => exact ⟨tidy_of_none rfl, rfl⟩
  | addToMemory =>
    exact ⟨h, congrArg (fun v => p.joined.setMemory (p.context.memory + v)) hvalue⟩
  | subtractFromMemory =>
    exact ⟨h, congrArg (fun v => p.joined.setMemory (p.context.memory - v)) hvalue⟩
  | _ => exact ⟨h, rfl⟩

/-- An action keeps a session tidy, and is the same action once entries and fault are joined. -/
theorem perform_joined {p : ApartSession} (h : p.Tidy) (a : Action) :
    (p.perform a).Tidy ∧ (p.perform a).joined = p.joined.perform a := by
  have hentries : p.onEntries.line.toList = p.joined.line.toList := (toList_joined h).symm
  have hcalculate : p.onEntries.calculate? a = p.joined.calculate? a :=
    Session.calculate?_congr hentries rfl rfl a
  rw [perform, Session.perform, hcalculate]
  rcases houtcome : p.joined.calculate? a with _ | ⟨fault | c, after⟩
  · exact edit_joined h a
  · rw [Session.after_error houtcome]
    exact ⟨fun _ => rfl, rfl⟩
  · rw [Session.after_ok houtcome]
    exact ⟨tidy_of_none rfl, rfl⟩

/-- So are actions one after the other. -/
theorem performAll_joined {p : ApartSession} (h : p.Tidy) (actions : List Action) :
    (p.performAll actions).Tidy ∧ (p.performAll actions).joined = p.joined.performAll actions := by
  induction actions generalizing p with
  | nil => exact ⟨h, rfl⟩
  | cons a actions ih =>
    obtain ⟨htidy, hjoined⟩ := perform_joined h a
    obtain ⟨hrest, hall⟩ := ih htidy
    refine ⟨hrest, hall.trans ?_⟩
    rw [hjoined]
    rfl

end ApartSession

/-! ## What a run leaves -/

namespace Session

/--
In a session that has been started in a context and used in any way, what each part holds is what
the latest action that writes it has left. A fault is shown only where the line has no entries, also
where nothing but the actions keeps the two apart.
-/
theorem run_remembers (context : Context) (actions : List Action) :
    let s := (start context).performAll actions
    -- No fault stands beside entries.
    (s.line.fault?.isSome = true → s.line.toList = [] ∧ s.line.source = "") ∧
      (({ context } : ApartSession).performAll actions).joined = s ∧
      (({ context } : ApartSession).performAll actions).Tidy ∧
      -- Memory, angle mode and rounding are written by their own keys only.
      (∀ more : List Action, (∀ a ∈ more, a.writesMemory = false) →
        (s.performAll more).context.memory = s.context.memory) ∧
      (∀ more : List Action, (∀ a ∈ more, a ≠ .toggleAngles) →
        (s.performAll more).context.angles = s.context.angles) ∧
      s.context.rounding = context.rounding ∧
      -- The last result and the working are the latest ones.
      s.context.lastResult =
        (((start context).transcript actions).getLast?.map Calculation.result).getD
          context.lastResult ∧
      s.working = ((start context).workings actions).getLast? ∧
      -- An evaluation writes its outcome on the line, and nothing else if it fails.
      (∀ a fault after, s.calculate? a = some (.error fault, after) →
        after = { s with line := .failed fault } ∧ after.line.toList = []) ∧
      ∀ a c after, s.calculate? a = some (.ok c, after) →
        after.line.toList = [.number c.result] ∧ after.line.fault? = none := by
  intro s
  have hstart : ({ context } : ApartSession).Tidy := fun _ => rfl
  obtain ⟨htidy, hjoined⟩ := ApartSession.performAll_joined hstart actions
  have hworking (s : Session) (a : Action) :
      (s.perform a).working = ((s.working? a).map some).getD s.working := by
    rw [working_perform]
    cases s.working? a <;> rfl
  refine ⟨?_, hjoined, htidy, fun more hmore => ?_, fun more hmore => ?_, ?_, ?_, ?_, ?_, ?_⟩
  · cases s.line with
    | entries es => exact nofun
    | failed fault => exact fun _ => ⟨rfl, rfl⟩
  · exact performAll_keeps (fun s => s.context.memory) (fun s a => s.memory_perform) s hmore
  · exact performAll_keeps (fun s => s.context.angles) (fun s a => s.angles_perform) s hmore
  · exact performAll_keeps (fun s => s.context.rounding) (fun s a _ => s.rounding_perform a)
      (start context) fun a _ => trivial
  · rw [transcript_eq_made]
    exact performAll_latest (fun s => s.context.lastResult) Calculation.result lastResult_perform
      (start context) actions
  · have hlatest := performAll_latest Session.working some hworking (start context) actions
    refine hlatest.trans ?_
    rw [workings]
    cases ((start context).made working? actions).getLast? <;> rfl
  · intro a fault after h
    exact ⟨after_error h, by rw [after_error h]; rfl⟩
  · intro a c after h
    rw [after_ok h]
    exact ⟨rfl, rfl⟩

/-- An incomplete sum fails, and what was kept before is still there. -/
theorem run_remembers_before_failure :
    let actions : List Action :=
      [.enter (.digit 5), .addToMemory, .evaluate, .enter (.operator .add), .evaluate]
    let s := (start {}).performAll actions
    (s.line.fault?.isSome = true ∧ s.line.toList = []) ∧
      s.context.memory = 5 ∧ s.context.lastResult = 5 := by
  intro actions s
  have hshown : s.line.fault?.isSome = true := by decide +kernel
  have hkept : s.context.memory = 5 ∧ s.context.lastResult = 5 := by decide +kernel
  obtain ⟨hempty, -⟩ := run_remembers {} actions
  exact ⟨⟨hshown, (hempty hshown).1⟩, hkept⟩

end Session

end SciCalc
