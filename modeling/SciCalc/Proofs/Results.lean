import SciCalc.Proofs.Remembering
import SciCalc.Proofs.Settling
import SciCalc.Settings

/-!
# What a result can be

A result is a finite number, and if it is zero then it has no sign. Settling sees to that for every
evaluation: what is settled is finite if the value before was, and a zero loses its sign in the last
step. A factorial is not settled, but it is checked to be finite and it is made from a whole number,
so it has no sign at all. Not every node of a tree checks its own value, and a tree may hold the
last result, so the two go together: the last result stays a result along a run, and with it every
value that an evaluation comes to is finite.
-/

set_option autoImplicit false

namespace SciCalc

open Binary64

/-- The number can be shown as a result: it is finite, and it is not the zero below zero. -/
structure Showable (v : Float) : Prop where
  isFinite : v.isFinite = true
  ne_negative_zero : v ≠ -0

/-! ## Zeros and their signs -/

/-- Zero can be shown. -/
theorem showable_zero : Showable 0 := ⟨by decide +kernel, by decide +kernel⟩

/-- What is cleared of the sign of zero is not the zero below zero. -/
theorem Rounding.clearSignOfZero_ne (v : Float) : clearSignOfZero v ≠ -0 := by
  rw [clearSignOfZero]
  split
  case isTrue => exact showable_zero.ne_negative_zero
  case isFalse hzero =>
    rintro rfl
    exact hzero (by decide +kernel)

/-- A settled finite value can be shown. -/
theorem showable_settle {r : Rounding} (hpos : 0 < r.zeroThreshold) {raw : Float}
    (h : raw.isFinite = true) : Showable (r.settle raw) :=
  ⟨Rounding.isFinite_settle hpos h, Rounding.clearSignOfZero_ne _⟩

/-- A factorial can be shown. -/
theorem showable_factorial {x v : Float} (h : Combinatorics.factorial x = .ok v) :
    Showable v := by
  refine ⟨(ComesFinite.counting x x).1 v h, ?_⟩
  obtain ⟨n, -, hn⟩ := Postfix.bind_eq_ok_iff.1 h
  split at hn
  case isTrue => cases hn
  case isFalse =>
    obtain ⟨-, rfl⟩ := finite_eq_ok_iff.1 hn
    have hpositive : isNegative (ofNat (Combinatorics.productAbove 0 n)) = false :=
      isNegative_ofField (Nat.min_le_left _ _) false
    have hnegative : isNegative (-0) = true := by decide +kernel
    intro hzero
    rw [hzero, hnegative] at hpositive
    cases hpositive

/-! ## Evaluations -/

/-- A text has a result that can be shown, if the last result is finite. -/
theorem showable_evaluate {source : String} {context : Context} {v : Float}
    (hpos : 0 < context.rounding.zeroThreshold) (hlast : context.lastResult.isFinite = true)
    (h : evaluate source context = .ok v) : Showable v := by
  obtain ⟨raw, hraw, rfl⟩ := evaluate_settled hlast h
  exact showable_settle hpos hraw

namespace Session

variable {s : Session}

/-- A session whose results are rounded in a given way and whose last result is finite. -/
structure Sound (r : Rounding) (s : Session) : Prop where
  rounding : s.context.rounding = r
  isFinite : s.context.lastResult.isFinite = true

/-- The line is evaluated to the value of its text. -/
theorem calculation?_evaluate {v : Float} :
    (∃ c, s.calculation? .evaluate = some c ∧ c.result = v) ↔
      evaluate s.line.source s.context = .ok v := by
  simp only [calculation?, calculate?, evaluateLine, evaluate]
  rcases evaluateWithWorking s.line.source s.context with fault | ⟨v', w⟩
  · simp [conclude, bind, Except.bind]
  · simp [conclude, bind, Except.bind, pure, Except.pure]

/-- What an action calculates is a finite value that has been settled, or it is a factorial. -/
theorem result_cases (hlast : s.context.lastResult.isFinite = true) {a : Action} {c : Calculation}
    (h : s.calculation? a = some c) :
    (∃ raw : Float, raw.isFinite = true ∧ c.result = s.context.rounding.settle raw) ∨
      ∃ x, Combinatorics.factorial x = .ok c.result := by
  -- What the keys other than that of the whole line calculate is their outcome.
  have houtcome {o : Except Fault Calculation} (h : ∃ after, some (s.conclude o) =
      some (.ok c, after)) : o = .ok c := by
    obtain ⟨after, h⟩ := h
    rw [conclude_eq, Option.some_inj, Prod.mk.injEq] at h
    exact h.1
  cases a with
  | evaluate => exact .inl (evaluate_settled hlast (calculation?_evaluate.1 ⟨c, h, rfl⟩))
  | takeRoot =>
    have h := houtcome (calculation?_eq_some_iff.1 h)
    obtain ⟨⟨x, y⟩, -, h⟩ := Postfix.bind_eq_ok_iff.1 h
    obtain ⟨v, hv, h⟩ := Postfix.bind_eq_ok_iff.1 h
    cases h
    rw [Root.root] at hv
    split at hv
    · cases hv
    · exact .inl ⟨v, ComesFinite.finite _ _ v hv, rfl⟩
  | takeReciprocal =>
    have h := houtcome (calculation?_eq_some_iff.1 h)
    obtain ⟨n, -, h⟩ := Postfix.bind_eq_ok_iff.1 h
    dsimp only at h
    split at h
    · cases h
    · obtain ⟨v, hv, h⟩ := Postfix.bind_eq_ok_iff.1 h
      cases h
      exact .inl ⟨v, ComesFinite.finite _ _ v hv, rfl⟩
  | takeSquare =>
    have h := houtcome (calculation?_eq_some_iff.1 h)
    obtain ⟨v, hv, h⟩ := Postfix.bind_eq_ok_iff.1 h
    cases h
    exact .inl (evaluate_settled hlast hv)
  | takeFactorial =>
    have h := houtcome (calculation?_eq_some_iff.1 h)
    obtain ⟨n, -, h⟩ := Postfix.bind_eq_ok_iff.1 h
    obtain ⟨v, hv, h⟩ := Postfix.bind_eq_ok_iff.1 h
    cases h
    exact .inr ⟨n, hv⟩
  | _ => cases h

/-- What an action calculates can be shown, if the last result is finite. -/
theorem showable_result {r : Rounding} (hpos : 0 < r.zeroThreshold) (hs : s.Sound r) {a : Action}
    {c : Calculation} (h : s.calculation? a = some c) : Showable c.result := by
  rcases result_cases hs.isFinite h with ⟨raw, hraw, hresult⟩ | ⟨x, hx⟩
  · rw [hresult, hs.rounding]
    exact showable_settle hpos hraw
  · exact showable_factorial hx

/-! ## Runs -/

/-- An action leaves the session sound. -/
theorem Sound.perform {r : Rounding} (hpos : 0 < r.zeroThreshold) (hs : s.Sound r) (a : Action) :
    (s.perform a).Sound r := by
  refine ⟨(rounding_perform s a).trans hs.rounding, ?_⟩
  rw [lastResult_perform]
  cases hcalculation : s.calculation? a with
  | none => exact hs.isFinite
  | some c => exact (showable_result hpos hs hcalculation).isFinite

/-- Actions leave the session sound. -/
theorem Sound.performAll {r : Rounding} (hpos : 0 < r.zeroThreshold) (hs : s.Sound r)
    (actions : List Action) : (s.performAll actions).Sound r := by
  induction actions generalizing s with
  | nil => exact hs
  | cons a actions ih => exact ih (hs.perform hpos a)

/-- Everything that a run from a sound session calculates can be shown. -/
theorem showable_of_mem_transcript {r : Rounding} (hpos : 0 < r.zeroThreshold) (hs : s.Sound r)
    {actions : List Action} {c : Calculation} (h : c ∈ s.transcript actions) :
    Showable c.result := by
  induction actions generalizing s with
  | nil => cases h
  | cons a actions ih =>
    rw [transcript, List.mem_append, Option.mem_toList] at h
    rcases h with hfirst | hrest
    · exact showable_result hpos hs hfirst
    · exact ih (hs.perform hpos a) hrest

end Session

/-- The rounding of settings has a number above zero as its threshold. -/
theorem Settings.zeroThreshold_pos (settings : Settings) :
    settings.rounding.zeroThreshold.isFinite = true ∧ 0 < settings.rounding.zeroThreshold := by
  have hdefault : (1e-10 : Float).isFinite = true ∧ (0 : Float) < 1e-10 := by decide +kernel
  simp only [Settings.rounding]
  split
  case isTrue hgiven => exact hgiven
  case isFalse => exact hdefault

/-- A session that starts in the context of settings is sound at every moment. -/
theorem Session.sound_performAll (settings : Settings) (actions : List Action) :
    ((Session.start settings.context).performAll actions).Sound settings.rounding := by
  have hzero : (0 : Float).isFinite = true := by decide +kernel
  have hstart : (Session.start settings.context).Sound settings.rounding := ⟨rfl, hzero⟩
  exact hstart.performAll settings.zeroThreshold_pos.2 actions

/--
Every value that a text is evaluated to can be shown as a result, in every context whose last result
is finite and whose rounding is that of settings. And in every session that starts in the context of
settings, the last result and everything that has been calculated can be shown, at every moment.
-/
theorem results_are_showable (settings : Settings) :
    (∀ (source : String) (context : Context) (v : Float),
      context.lastResult.isFinite = true → context.rounding = settings.rounding →
        evaluate source context = .ok v → Showable v) ∧
      ∀ actions : List Action,
        let start := Session.start settings.context
        Showable (start.performAll actions).context.lastResult ∧
          ∀ c ∈ start.transcript actions, Showable c.result := by
  have hpos := settings.zeroThreshold_pos.2
  constructor
  · intro source context v hlast hrounding hvalue
    rw [← hrounding] at hpos
    exact showable_evaluate hpos hlast hvalue
  · intro actions start
    have hstart : start.Sound settings.rounding := Session.sound_performAll settings []
    have hshown : ∀ c ∈ start.transcript actions, Showable c.result := fun c hc =>
      Session.showable_of_mem_transcript hpos hstart hc
    refine ⟨?_, hshown⟩
    -- The last result is what a run starts with, or it has been calculated on the way.
    rw [Session.performAll_latest (fun s => s.context.lastResult) Calculation.result
      Session.lastResult_perform, ← Session.transcript_eq_made]
    cases hlatest : (start.transcript actions).getLast? with
    | none => exact showable_zero
    | some c => exact hshown c (List.mem_of_getLast? hlatest)

/-- A product of zero and a number below zero has a sign before it is settled, and none after. -/
theorem results_are_showable_zero_product :
    let context := ({} : Settings).context
    rawValue "0*(0-3)" context = .ok (-0) ∧
      ∃ v, evaluate "0*(0-3)" context = .ok v ∧ Showable v := by
  intro context
  have hraw : rawValue "0*(0-3)" context = .ok (-0) := by decide +kernel
  have hvalue : evaluate "0*(0-3)" context = .ok 0 := by decide +kernel
  have hlast : context.lastResult.isFinite = true := by decide +kernel
  exact ⟨hraw, 0, hvalue, (results_are_showable {}).1 _ context 0 hlast rfl hvalue⟩

end SciCalc
