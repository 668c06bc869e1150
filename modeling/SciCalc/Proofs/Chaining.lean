import SciCalc.Proofs.Results
import SciCalc.Proofs.TokenTexts

/-!
# Going on from a result

A result is left on the line as a number, and a number on the line is read back as itself, with its
sign. Every result is finite and settled: that of a factorial because it is one or a whole number
far from one, any other because it has been settled. So the result can be evaluated again, from the
line or as the last result, and stays what it is.
-/

set_option autoImplicit false

namespace SciCalc

open Binary64

/-! ## Numbers on the line -/

namespace Token

/-- A magnitude is read as one literal without a sign. -/
theorem lexFrom_magnitudeText {v : Float} (h : v.isFinite = true) :
    lexFrom .nothing (Number.magnitudeText (field v)) = [number (ofField false (field v))] := by
  have hfield := (isFinite_iff v).1 h
  have hdigits := Number.isDigit_or_point_of_mem_magnitudeText hfield
  rw [lexFrom_nothing_numeral (Number.magnitudeText_ne_nil hfield) fun c hc =>
    inNumeral_iff.2 (hdigits c hc), ofNumeral, Number.ofChars?_of_isDigit_or_point hdigits,
    Number.unsigned?_magnitudeText hfield]

/-- A finite number is read as its magnitude, behind a minus sign if it is negative. -/
theorem lexFrom_chars {v : Float} (h : v.isFinite = true) :
    lexFrom .nothing (Number.chars v) =
      if isNegative v then [operator .subtract, number (ofField false (field v))]
      else [number (ofField false (field v))] := by
  rw [Number.chars_of_isFinite h]
  cases isNegative v with
  | true =>
    have hminus (cs : List Char) :
        lexFrom .nothing ('-' :: cs) = operator .subtract :: lexFrom .nothing cs := rfl
    rw [if_pos rfl, if_pos rfl, hminus, lexFrom_magnitudeText h]
  | false => rw [if_neg (by simp), if_neg (by simp), lexFrom_magnitudeText h]

/-- A number on the line is read as its characters, in brackets if it is below zero. -/
theorem lex_source_number (v : Float) :
    lex (Entry.number v).source =
      if v < 0 then opening :: (lexFrom .nothing (Number.chars v) ++ [closing])
      else lexFrom .nothing (Number.chars v) := by
  rw [lex, Entry.source]
  split
  case isTrue =>
    have hchars : ("(" ++ Number.text v ++ ")").toList = '(' :: (Number.chars v ++ ')' :: []) := by
      simp [Number.text]
    have hopen (cs : List Char) : lexFrom .nothing ('(' :: cs) = opening :: lexFrom .nothing cs :=
      rfl
    have hclose : lexFrom .nothing [')'] = [closing] := rfl
    rw [hchars, hopen, lexFrom_append_cons (cuts_of rfl rfl (by decide)), hclose]
  case isFalse => rw [Number.text, String.toList_ofList]

end Token

/-- A finite number on the line has itself as its value. -/
theorem rawValue_number {v : Float} (h : v.isFinite = true) (context : Context) :
    rawValue (Entry.number v).source context = .ok v := by
  have hmagnitude := (unpack_ofField ((isFinite_iff v).1 h) false).1
  rw [rawValue_eq_ok_iff, Expr.ofText, Token.lex_source_number, Token.lexFrom_chars h]
  cases hsign : isNegative v with
  | true =>
    refine ⟨.negate (.number (ofField false (field v))), ?_, ?_⟩
    · split <;> cases context.angles <;> rfl
    · have hvalue : Expr.value context.lastResult (.number (ofField false (field v))) =
          .ok (ofField false (field v)) := finite_eq_ok_iff.2 ⟨hmagnitude, rfl⟩
      have hneg : -ofField false (field v) = v := by
        have hle := Nat.le_of_lt ((isFinite_iff v).1 h)
        have hself := ofField_field v
        rw [hsign] at hself
        rw [neg_eq_ofField hmagnitude, isNegative_ofField hle, field_ofField hle]
        exact hself
      rw [Expr.value, hvalue]
      exact congrArg Except.ok hneg
  | false =>
    refine ⟨.number (ofField false (field v)), ?_, ?_⟩
    · split <;> cases context.angles <;> rfl
    · rw [← hsign, ofField_field]
      exact finite_eq_ok_iff.2 ⟨h, rfl⟩

/-- The last result on the line has itself as its value. -/
theorem rawValue_answer (context : Context) :
    rawValue Entry.answer.source context = .ok context.lastResult := by
  have hlex : Token.lex Entry.answer.source = [.answer] := by decide +kernel
  rw [rawValue_eq_ok_iff, Expr.ofText, hlex]
  refine ⟨.answer, ?_, rfl⟩
  cases context.angles <;> rfl

namespace Session

variable {s : Session}

/-! ## Results -/

/-- The result can stand on the line: it is finite, and settling it leaves it where it is. -/
structure Stays (r : Rounding) (v : Float) : Prop where
  isFinite : v.isFinite = true
  settled : r.settle v = v

/-- A settled finite value stays. -/
theorem stays_settle {r : Rounding} (hr : r.UpToOne) {raw : Float} (h : raw.isFinite = true) :
    Stays r (r.settle raw) :=
  ⟨Rounding.isFinite_settle hr.pos h, Rounding.settle_settle hr h⟩

/-- What an action has calculated is left on the line and as the last result. -/
theorem exists_of_calculation? {a : Action} {c : Calculation} (h : s.calculation? a = some c) :
    ∃ working, s.perform a =
      { line := .entries [.number c.result]
        context := { s.context with lastResult := c.result }
        working } := by
  obtain ⟨after, h⟩ := calculation?_eq_some_iff.1 h
  refine ⟨(s.working? a).or s.working, ?_⟩
  rw [perform, h, after_ok h]

/-- The result of an evaluating action stays. -/
theorem stays_result {r : Rounding} (hr : r.UpToOne) (hs : s.Sound r) {a : Action}
    {c : Calculation} (h : s.calculation? a = some c) : Stays r c.result := by
  rcases result_cases hs.isFinite h with ⟨raw, hraw, hresult⟩ | ⟨x, hx⟩
  · rw [hresult, hs.rounding]
    exact stays_settle hr hraw
  · obtain ⟨hfinite, hsettled⟩ := Rounding.settle_factorial hr hx
    exact ⟨hfinite, hsettled⟩

/-! ## Going on -/

/-- The line is evaluated to a result, which is then the last one. -/
def Yields (s : Session) (v : Float) : Prop :=
  (∃ c, s.calculation? .evaluate = some c ∧ c.result = v) ∧
    (s.perform .evaluate).context.lastResult = v

/-- A line whose text has a value that stays yields it. -/
theorem yields_of_rawValue {v : Float} (hv : Stays s.context.rounding v)
    (hraw : rawValue s.line.source s.context = .ok v) : s.Yields v := by
  have hvalue : evaluate s.line.source s.context = .ok v := by
    rw [evaluate_eq, hraw]
    exact congrArg Except.ok hv.settled
  obtain ⟨c, hc, rfl⟩ := calculation?_evaluate.2 hvalue
  obtain ⟨working, hperform⟩ := exists_of_calculation? hc
  refine ⟨⟨c, hc, rfl⟩, ?_⟩
  rw [hperform]

end Session

/--
In a session that starts in the context of settings, with a threshold up to one, the result of any
evaluating action can be evaluated again: at once, and from the last result after clearing the line.
It stays what it is, and it stays the last result.
-/
theorem Session.result_yields_itself {settings : Settings}
    (hthreshold : settings.context.rounding.zeroThreshold ≤ 1) (actions : List Action) {a : Action}
    {c : Calculation}
    (h : ((Session.start settings.context).performAll actions).calculation? a = some c) :
    let s := ((Session.start settings.context).performAll actions).perform a
    s.Yields c.result ∧ ((s.perform .clear).perform (.enter .answer)).Yields c.result := by
  obtain ⟨hfinite, hpos⟩ := settings.zeroThreshold_pos
  have hr : settings.rounding.UpToOne := ⟨hfinite, hpos, hthreshold⟩
  have hs := sound_performAll settings actions
  have hstays := stays_result hr hs h
  obtain ⟨working, hperform⟩ := exists_of_calculation? h
  have hrounding := (hs.perform hpos a).rounding
  intro s
  have hline : s.line.source = (Entry.number c.result).source := by
    show (Session.perform _ a).line.source = _
    rw [hperform]
    simp [Line.source, Line.toList, Entry.sourceAll]
  have hlast : s.context.lastResult = c.result := by
    show (Session.perform _ a).context.lastResult = _
    rw [hperform]
  have hcontext : s.context.rounding = settings.context.rounding := hrounding
  constructor
  · refine yields_of_rawValue (hcontext ▸ hstays) ?_
    rw [hline]
    exact rawValue_number hstays.isFinite s.context
  · refine yields_of_rawValue (hcontext ▸ hstays) ?_
    refine (rawValue_answer s.context).trans ?_
    rw [hlast]

/-- The reciprocal of minus three is read back with its sign. -/
theorem Session.result_yields_itself_negative_reciprocal :
    let actions : List Action :=
      [.enter (.digit 0), .enter (.operator .subtract), .enter (.digit 3)]
    let before := (Session.start ({} : Settings).context).performAll actions
    let c : Calculation := { expression := "1/(-3)", result := -0.3333333333 }
    let s := before.perform .takeReciprocal
    ({} : Settings).context.rounding.zeroThreshold ≤ 1 ∧
      before.calculation? .takeReciprocal = some c ∧
      s.Yields c.result ∧ ((s.perform .clear).perform (.enter .answer)).Yields c.result := by
  intro actions before c s
  have hthreshold : ({} : Settings).context.rounding.zeroThreshold ≤ 1 := by decide +kernel
  have hcalculation : before.calculation? .takeReciprocal = some c := by decide +kernel
  exact ⟨hthreshold, hcalculation,
    Session.result_yields_itself hthreshold actions hcalculation⟩

end SciCalc
