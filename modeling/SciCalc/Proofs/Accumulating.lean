import SciCalc.Proofs.Chaining
import SciCalc.Proofs.Sums

/-!
# The memory along a run

The keys `M+` and `M-` add and subtract as the operators do, but where an operator refuses a sum
that is too large, they keep it. So the memory of a run is a finite number exactly until one of
these keys meets such a sum, and from then on it is an infinity until the memory is cleared. A
finite memory is read back from the line as itself; an infinite one is no number in a text.
-/

set_option autoImplicit false

namespace SciCalc

open Binary64

/-- The operator by which an action changes the memory. -/
def Action.memoryOperator? : Action → Option Operator
  | addToMemory => some .add
  | subtractFromMemory => some .subtract
  | _ => none

/-- The check refuses exactly what is not finite. -/
theorem exists_finite_eq_error_iff {o : Origin} {x : Float} :
    (∃ fault, finite o x = .error fault) ↔ x.isFinite = false := by
  rw [isFinite_eq, finite]
  cases x.isNaN <;> cases x.isInf <;> simp

namespace Session

variable {s : Session} {a : Action}

/-! ## One action -/

/-- A memory key changes a finite memory to what its operator would have refused. -/
def Overfills (s : Session) (a : Action) : Prop :=
  s.context.memory.isFinite = true ∧
    ∃ op fault, a.memoryOperator? = some op ∧
      op.apply s.context.memory s.lineValue = .error fault

/-- What a memory key keeps is what its operator would check. -/
theorem apply_memoryOperator {op : Operator} (h : a.memoryOperator? = some op) :
    op.apply s.context.memory s.lineValue =
      finite (.operator op) (s.perform a).context.memory := by
  cases a with
  | addToMemory =>
    cases h
    rfl
  | subtractFromMemory =>
    cases h
    rfl
  | _ => cases h

/-- A memory key overfills a finite memory if it leaves one that is not finite. -/
theorem overfills_iff {op : Operator} (h : a.memoryOperator? = some op) :
    s.Overfills a ↔
      s.context.memory.isFinite = true ∧ (s.perform a).context.memory.isFinite = false := by
  rw [Overfills, ← exists_finite_eq_error_iff, ← apply_memoryOperator h]
  simp [h]

/-- An action without an operator on the memory clears it or keeps it. -/
theorem memory_of_no_operator (h : a.memoryOperator? = none) :
    (s.perform a).context.memory = if a = .clearMemory then 0 else s.context.memory := by
  split
  case isTrue ha =>
    subst ha
    rfl
  case isFalse ha =>
    refine memory_perform s ?_
    cases a with
    | addToMemory => cases h
    | subtractFromMemory => cases h
    | clearMemory => exact absurd rfl ha
    | _ => rfl

/-- The value of the line of a sound session is finite. -/
theorem isFinite_lineValue {r : Rounding} (hpos : 0 < r.zeroThreshold) (hs : s.Sound r) :
    s.lineValue.isFinite = true := by
  have hzero : (0 : Float).isFinite = true := by decide +kernel
  rw [lineValue]
  split
  · exact hzero
  · cases hvalue : evaluate s.line.source s.context with
    | error fault => exact hzero
    | ok v =>
      obtain ⟨raw, hraw, rfl⟩ := evaluate_settled hs.isFinite hvalue
      rw [hs.rounding]
      exact Rounding.isFinite_settle hpos hraw

/-- A memory key adds a finite number, which for `M-` is the negation of the line's value. -/
theorem exists_memory_eq_add {op : Operator} (hline : s.lineValue.isFinite = true)
    (h : a.memoryOperator? = some op) :
    ∃ v : Float, v.isFinite = true ∧ (s.perform a).context.memory = s.context.memory + v := by
  cases a with
  | addToMemory => exact ⟨s.lineValue, hline, rfl⟩
  | subtractFromMemory => exact ⟨-s.lineValue, isFinite_neg hline, sub_eq_add_neg hline⟩
  | _ => cases h

/-- A sound session whose memory is a number or an infinity. -/
structure SoundMemory (r : Rounding) (s : Session) : Prop where
  sound : s.Sound r
  isNaN : s.context.memory.isNaN = false

/-- An infinite memory stays as it is under a memory key. -/
theorem SoundMemory.memory_of_not_finite {r : Rounding} (hpos : 0 < r.zeroThreshold)
    (hs : s.SoundMemory r) {op : Operator} (hop : a.memoryOperator? = some op)
    (h : s.context.memory.isFinite = false) :
    (s.perform a).context.memory = s.context.memory := by
  obtain ⟨v, hv, hmemory⟩ := exists_memory_eq_add (isFinite_lineValue hpos hs.sound) hop
  rw [hmemory]
  exact add_of_isInf (isInf_of_not_finite hs.isNaN h) hv

/-- An action keeps the session sound. -/
theorem SoundMemory.perform {r : Rounding} (hpos : 0 < r.zeroThreshold) (hs : s.SoundMemory r)
    (a : Action) : (s.perform a).SoundMemory r := by
  refine ⟨hs.sound.perform hpos a, ?_⟩
  cases hop : a.memoryOperator? with
  | none =>
    rw [memory_of_no_operator hop]
    split
    · decide +kernel
    · exact hs.isNaN
  | some op =>
    cases hfinite : s.context.memory.isFinite with
    | true =>
      obtain ⟨v, hv, hmemory⟩ := exists_memory_eq_add (isFinite_lineValue hpos hs.sound) hop
      rw [hmemory]
      exact isNaN_add hfinite hv
    | false =>
      rw [hs.memory_of_not_finite hpos hop hfinite]
      exact hs.isNaN

/-- After an action the memory is not finite if the action overfills it or leaves it so. -/
theorem SoundMemory.isFinite_perform {r : Rounding} (hpos : 0 < r.zeroThreshold)
    (hs : s.SoundMemory r) (a : Action) :
    (s.perform a).context.memory.isFinite = false ↔
      s.Overfills a ∨ s.context.memory.isFinite = false ∧ a ≠ .clearMemory := by
  cases hop : a.memoryOperator? with
  | none =>
    have hno : ¬s.Overfills a := by
      rintro ⟨-, op, fault, hop', -⟩
      rw [hop] at hop'
      cases hop'
    have hzero : (0 : Float).isFinite = true := by decide +kernel
    rw [memory_of_no_operator hop]
    simp only [hno, false_or]
    by_cases hclear : a = .clearMemory
    · simp [hclear, hzero]
    · simp [hclear]
  | some op =>
    have hclear : a ≠ .clearMemory := by
      rintro rfl
      cases hop
    rw [overfills_iff hop]
    cases hfinite : s.context.memory.isFinite with
    | true => simp
    | false => simp [hs.memory_of_not_finite hpos hop hfinite, hfinite, hclear]

/-! ## Runs -/

/-- Actions keep the session sound. -/
theorem SoundMemory.performAll {r : Rounding} (hpos : 0 < r.zeroThreshold) (hs : s.SoundMemory r)
    (actions : List Action) : (s.performAll actions).SoundMemory r := by
  induction actions generalizing s with
  | nil => exact hs
  | cons a actions ih => exact ih (hs.perform hpos a)

/-- A run overfills the memory and does not clear it after that. -/
def StaysOverfilled (s : Session) (actions : List Action) : Prop :=
  ∃ before a after, actions = before ++ a :: after ∧
    (s.performAll before).Overfills a ∧ Action.clearMemory ∉ after

/-- The last action of a run overfills the memory, or it leaves it overfilled. -/
theorem staysOverfilled_append_singleton {actions : List Action} :
    s.StaysOverfilled (actions ++ [a]) ↔
      (s.performAll actions).Overfills a ∨ s.StaysOverfilled actions ∧ a ≠ .clearMemory := by
  constructor
  · rintro ⟨before, b, after, hactions, hover, hclear⟩
    rcases List.eq_nil_or_concat after with rfl | ⟨rest, last, rfl⟩
    · obtain ⟨rfl, hlast⟩ := List.append_inj' hactions rfl
      cases hlast
      exact .inl hover
    · rw [List.concat_eq_append] at hactions hclear
      have hsplit : actions ++ [a] = (before ++ b :: rest) ++ [last] := by simpa using hactions
      obtain ⟨rfl, hlast⟩ := List.append_inj' hsplit rfl
      cases hlast
      rw [List.mem_append, List.mem_singleton, not_or] at hclear
      exact .inr ⟨⟨before, b, rest, rfl, hover, hclear.1⟩, Ne.symm hclear.2⟩
  · rintro (hover | ⟨⟨before, b, after, rfl, hover, hclear⟩, ha⟩)
    · exact ⟨actions, a, [], rfl, hover, nofun⟩
    · refine ⟨before, b, after ++ [a], by simp, hover, ?_⟩
      rw [List.mem_append, List.mem_singleton, not_or]
      exact ⟨hclear, Ne.symm ha⟩

/-- After actions the memory is not finite exactly if they overfill it and leave it so. -/
theorem SoundMemory.isFinite_performAll {r : Rounding} (hpos : 0 < r.zeroThreshold)
    (hs : s.SoundMemory r) (h : s.context.memory.isFinite = true) (actions : List Action) :
    (s.performAll actions).context.memory.isFinite = false ↔ s.StaysOverfilled actions := by
  -- From the end, where the last action decides.
  induction actions using List.reverseRecOn with
  | nil =>
    have hnone : ¬s.StaysOverfilled [] := by
      rintro ⟨before, a, after, hactions, -⟩
      simp at hactions
    simp [hnone, Session.performAll, h]
  | append_singleton actions a ih =>
    have hrun : s.performAll (actions ++ [a]) = (s.performAll actions).perform a := by
      simp [Session.performAll]
    rw [hrun, staysOverfilled_append_singleton]
    refine ((hs.performAll hpos actions).isFinite_perform hpos a).trans ?_
    exact or_congr Iff.rfl (and_congr ih Iff.rfl)

/-! ## Recalling -/

/-- An infinity is written as a word. -/
theorem source_of_isInf {x : Float} (h : x.isInf = true) :
    (Entry.number x).source = "inf" ∨ (Entry.number x).source = "(-inf)" := by
  obtain ⟨s, hs⟩ := exists_unpack_of_isInf h
  rw [← pack_of_unpack hs]
  cases s with
  | positive => exact .inl (by decide +kernel)
  | negative => exact .inr (by decide +kernel)

/-- The word for an infinity is unknown in a text. -/
theorem evaluateWithWorking_of_isInf {x : Float} (h : x.isInf = true) (context : Context) :
    evaluateWithWorking (Entry.number x).source context =
      .error (.malformed (.unknownText "inf")) := by
  have htree :
      Expr.ofText context.angles (Entry.number x).source = .error (.unknownText "inf") := by
    rcases source_of_isInf h with hsource | hsource
    · have hlex : Token.lex "inf" = [.unknown "inf"] := by decide +kernel
      rw [hsource, Expr.ofText, hlex]
      cases context.angles <;> rfl
    · have hlex : Token.lex "(-inf)" =
          [.opening, .operator .subtract, .unknown "inf", .closing] := by decide +kernel
      rw [hsource, Expr.ofText, hlex]
      cases context.angles <;> rfl
  rw [evaluateWithWorking_eq, htree]
  rfl

/-- The recalled memory is alone on a line that was cleared. -/
theorem source_recalled (s : Session) :
    ((s.perform .clear).perform .recallMemory).line.source =
      (Entry.number s.context.memory).source := by
  have hline : ((s.perform .clear).perform .recallMemory).line =
      .entries [.number s.context.memory] := rfl
  rw [hline]
  simp [Line.source, Line.toList, Entry.sourceAll]

/--
In a session that starts in the context of settings, the memory is a finite number at a moment
unless a memory key has changed it to a sum that its operator would have refused, and it has not
been cleared since. A finite memory is recalled onto a cleared line and evaluated to itself,
settled. One that is not finite is an infinity, and evaluating it fails at the word for it.
-/
theorem memory_recalls_unless_overfilled (settings : Settings) (actions : List Action) :
    let start := Session.start settings.context
    let s := start.performAll actions
    let recalled := (s.perform .clear).perform .recallMemory
    (s.context.memory.isFinite = true ↔ ¬start.StaysOverfilled actions) ∧
      (¬start.StaysOverfilled actions →
        ∃ c, recalled.calculation? .evaluate = some c ∧
          c.result = settings.rounding.settle s.context.memory) ∧
      (start.StaysOverfilled actions →
        let fault := Fault.malformed (.unknownText "inf")
        s.context.memory.isInf = true ∧
          recalled.calculate? .evaluate =
            some (.error fault, { recalled with line := .failed fault })) := by
  intro start s recalled
  have hpos := settings.zeroThreshold_pos.2
  have hzero : (0 : Float).isFinite = true ∧ (0 : Float).isNaN = false := by decide +kernel
  have hstart : start.SoundMemory settings.rounding := ⟨sound_performAll settings [], hzero.2⟩
  have hs : s.SoundMemory settings.rounding := hstart.performAll hpos actions
  have hmemory : s.context.memory.isFinite = false ↔ start.StaysOverfilled actions :=
    hstart.isFinite_performAll hpos hzero.1 actions
  have hsource : recalled.line.source = (Entry.number s.context.memory).source := source_recalled s
  refine ⟨?_, fun hkept => ?_, fun hover => ?_⟩
  · rw [← hmemory, Bool.not_eq_false]
  · rw [← hmemory, Bool.not_eq_false] at hkept
    have hrounding : recalled.context.rounding = settings.rounding := hs.sound.rounding
    apply calculation?_evaluate.2
    rw [hsource, evaluate_eq, rawValue_number hkept, hrounding]
    rfl
  · have hinf : s.context.memory.isInf = true := isInf_of_not_finite hs.isNaN (hmemory.2 hover)
    refine ⟨hinf, ?_⟩
    rw [calculate?, evaluateLine, hsource, evaluateWithWorking_of_isInf hinf]
    rfl

/-- Clearing the memory ends it: a number below zero is recalled with its sign after that. -/
theorem memory_recalls_unless_overfilled_after_clearing :
    let large : List Action :=
      [.enter (.digit 1), .enter (.digit 7), .enter (.digit 0), .enter .factorialMark,
        .enter (.operator .multiply), .enter (.digit 2), .enter (.digit 0)]
    let actions : List Action := large ++ [.addToMemory, .addToMemory, .clearMemory, .clear,
      .enter (.digit 3), .subtractFromMemory]
    let start := Session.start ({} : Settings).context
    let recalled := ((start.performAll actions).perform .clear).perform .recallMemory
    ¬start.StaysOverfilled actions ∧
      ∃ c, recalled.calculation? .evaluate = some c ∧ c.result = -3 := by
  intro large actions start recalled
  obtain ⟨hfinite, hrecalls, -⟩ := memory_recalls_unless_overfilled {} actions
  have hmemory : (start.performAll actions).context.memory = -3 := by decide +kernel
  have hkept : ¬start.StaysOverfilled actions := hfinite.1 (by decide +kernel)
  obtain ⟨c, hc, hresult⟩ := hrecalls hkept
  refine ⟨hkept, c, hc, hresult.trans ?_⟩
  rw [hmemory]
  decide +kernel

/-- Adding a number near the largest one twice leaves a memory that cannot be recalled. -/
theorem memory_overfilled_by_factorial :
    let actions : List Action :=
      [.enter (.digit 1), .enter (.digit 7), .enter (.digit 0), .enter .factorialMark,
        .enter (.operator .multiply), .enter (.digit 2), .enter (.digit 0),
        .addToMemory, .addToMemory]
    let s := (Session.start ({} : Settings).context).performAll actions
    s.context.memory.isFinite = false ∧
      ((s.perform .clear).perform .recallMemory).calculation? .evaluate = none := by
  decide +kernel

end Session

end SciCalc
