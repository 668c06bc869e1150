import SciCalc.Expr.Value
import SciCalc.Proofs.Operands

/-!
# Where an evaluation breaks off

An evaluation that breaks off reports nothing. The first factor of a product of permutations is one
more than what is left out, and that leaves the machine word in one case only: nothing is chosen
from `2 ^ 64` items, which are read as the largest word. A refusal before that case goes before it,
so an evaluation breaks off exactly if it reaches such a choice, operands from left to right.
-/

set_option autoImplicit false

namespace SciCalc

/-! ## The faults of an outcome -/

/-- A value, or a fault of the kind. -/
def FailsOnly {α : Type} (p : Fault → Prop) (outcome : Except Fault α) : Prop :=
  ∀ fault, outcome = .error fault → p fault

namespace FailsOnly

variable {α β : Type} {p : Fault → Prop}

/-- A value has no fault. -/
theorem ok (a : α) : FailsOnly p (.ok a) := by
  intro fault h
  cases h

/-- A fault of the kind is one. -/
theorem error {fault : Fault} (h : p fault) : FailsOnly p (.error fault : Except Fault α) := by
  intro cause hcause
  cases hcause
  exact h

/-- A kind may be widened. -/
theorem mono {q : Fault → Prop} {outcome : Except Fault α} (h : FailsOnly p outcome)
    (hkind : ∀ fault, p fault → q fault) : FailsOnly q outcome :=
  fun fault hfault => hkind fault (h fault hfault)

/-- One step after the other. -/
theorem bind {outcome : Except Fault α} {next : α → Except Fault β} (h : FailsOnly p outcome)
    (hnext : ∀ a, outcome = .ok a → FailsOnly p (next a)) : FailsOnly p (outcome >>= next) := by
  cases outcome with
  | error cause => exact error (h cause rfl)
  | ok a => exact hnext a rfl

section

variable (hnumeric : ∀ cause, cause ≠ .wordOverflow → p (.numeric cause))

include hnumeric

/-- A value is checked to be finite. -/
theorem finite (origin : Origin) (v : Float) : FailsOnly p (SciCalc.finite origin v) := by
  rw [SciCalc.finite]
  split
  · exact error (hnumeric _ (by simp))
  · split
    · exact error (hnumeric _ (by simp))
    · exact ok v

/-- An operator fails only for a number. -/
theorem operator (op : Operator) (a b : Float) : FailsOnly p (op.apply a b) := by
  cases op with
  | add => exact finite hnumeric _ _
  | subtract => exact finite hnumeric _ _
  | multiply => exact finite hnumeric _ _
  | divide =>
    rw [Operator.apply]
    split
    · exact error (hnumeric _ (by simp))
    · exact finite hnumeric _ _
  | raise =>
    rw [Operator.apply]
    split
    · exact error (hnumeric _ (by simp))
    · exact finite hnumeric _ _

/-- A count that is too large is a fault of a number. -/
theorem overflow (f : MathFunction) : FailsOnly p (Combinatorics.overflow f) :=
  error (hnumeric _ (by simp))

variable (hdomain : ∀ cause, p (.outOfDomain cause))

include hdomain

/-- An operand of a counting function is read or refused. -/
theorem natural (f : MathFunction) (x : Float) : FailsOnly p (Combinatorics.natural f x) := by
  simp only [Combinatorics.natural]
  split
  · exact error (hdomain _)
  · split
    · exact error (hdomain _)
    · split
      · exact error (hnumeric _ (by simp))
      · exact ok _

/-- The operands of a choice are read or refused. -/
theorem choice (f : MathFunction) (n r : Float) : FailsOnly p (Combinatorics.choice f n r) := by
  have hread := natural hnumeric hdomain f
  refine (hread n).bind fun total _ => (hread r).bind fun chosen _ => ?_
  split
  · exact error (hdomain _)
  · exact ok _

/-- Factorials fail for a number or a domain. -/
theorem factorial (x : Float) : FailsOnly p (Combinatorics.factorial x) := by
  refine (natural hnumeric hdomain _ _).bind fun n _ => ?_
  split
  · exact overflow hnumeric _
  · exact finite hnumeric _ _

/-- Combinations fail for a number or a domain. -/
theorem combinations (x y : Float) : FailsOnly p (Combinatorics.combinations x y) := by
  refine (choice hnumeric hdomain _ _ _).bind fun q _ => ?_
  obtain ⟨n, r⟩ := q
  dsimp only
  split
  · exact overflow hnumeric _
  · exact finite hnumeric _ _

/-- Permutations can also break off. -/
theorem permutations (hbroken : p (.numeric .wordOverflow)) (x y : Float) :
    FailsOnly p (Combinatorics.permutations x y) := by
  refine (choice hnumeric hdomain _ _ _).bind fun q _ => ?_
  obtain ⟨n, r⟩ := q
  dsimp only
  split
  · exact overflow hnumeric _
  · split
    · exact error hbroken
    · exact finite hnumeric _ _

end

end FailsOnly

/-! ## What is reported -/

/-- Every fault is reported but that of a word that overflows, where the calculation breaks off. -/
def Fault.IsReported (fault : Fault) : Prop := fault ≠ .numeric .wordOverflow

/-- What fails with reported faults only has not broken off. -/
theorem FailsOnly.ne_wordOverflow {α : Type} {outcome : Except Fault α}
    (h : FailsOnly Fault.IsReported outcome) : outcome ≠ .error (.numeric .wordOverflow) :=
  fun hbroken => h _ hbroken rfl

/-- Another fault of a number is reported. -/
theorem Fault.isReported_numeric (cause : NumericFault) (h : cause ≠ .wordOverflow) :
    (numeric cause).IsReported :=
  fun heq => h (numeric.inj heq)

/-- A domain fault is reported. -/
theorem Fault.isReported_outOfDomain (cause : DomainFault) : (outOfDomain cause).IsReported := by
  intro h
  cases h

/-- A malformation is reported. -/
theorem Fault.isReported_malformed (cause : Malformation) : (malformed cause).IsReported := by
  intro h
  cases h

/-- A function other than permutations reports what it fails for. -/
theorem MathFunction.reports_apply {f : MathFunction} (hother : f ≠ .permutations)
    (vs : List Float) : FailsOnly Fault.IsReported (f.apply vs) := by
  have hfinite := @FailsOnly.finite _ Fault.isReported_numeric
  have hfactorial := FailsOnly.factorial Fault.isReported_numeric Fault.isReported_outOfDomain
  match vs with
  | [] => cases f <;> exact .error (Fault.isReported_malformed _)
  | [x] =>
    cases f with
    | factorial => exact hfactorial x
    | permutations => exact absurd rfl hother
    | combinations => exact .error (Fault.isReported_malformed _)
    | _ => exact hfinite _ _
  | x :: y :: _ =>
    cases f with
    | factorial => exact hfactorial x
    | permutations => exact absurd rfl hother
    | combinations =>
      exact .combinations Fault.isReported_numeric Fault.isReported_outOfDomain x y
    | _ => exact hfinite _ _

namespace Combinatorics

/-- What is read as the largest word is `2 ^ 64`, since no number stands for that word itself. -/
theorem natural_eq_largestOperand_iff (f : MathFunction) {x : Float} :
    natural f x = .ok largestOperand ↔ StandsFor x (2 ^ 64) := by
  have hlargest : largestOperand = 2 ^ 64 - 1 := rfl
  rw [natural_eq_ok_iff]
  constructor
  · rintro ⟨m, hm, hx, hread⟩
    rcases Nat.lt_or_eq_of_le hm with hlt | rfl
    · have hroom := hx.add_le hlt
      omega
    · exact hx
  · exact fun hx => ⟨2 ^ 64, Nat.le_refl _, hx, by omega⟩

/-- What is read as zero is zero. -/
theorem natural_eq_zero_iff (f : MathFunction) {x : Float} :
    natural f x = .ok 0 ↔ StandsFor x 0 := by
  have hlargest : 0 < largestOperand := by decide
  rw [natural_eq_ok_iff]
  constructor
  · rintro ⟨m, hm, hx, hread⟩
    obtain rfl : m = 0 := by omega
    exact hx
  · exact fun hx => ⟨0, Nat.zero_le _, hx, by omega⟩

/-- The first factor of a product of permutations leaves the word in one case only. -/
theorem largestOperand_lt_sub_add_one_iff {n r : Nat} (hn : n ≤ largestOperand) :
    largestOperand < n - r + 1 ↔ n = largestOperand ∧ r = 0 := by
  have hpositive : 0 < largestOperand := by decide
  omega

/-- Permutations break off exactly where nothing is chosen from `2 ^ 64` items. -/
theorem permutations_eq_wordOverflow_iff {x y : Float} :
    permutations x y = .error (.numeric .wordOverflow) ↔
      StandsFor x (2 ^ 64) ∧ StandsFor y 0 := by
  rw [← natural_eq_largestOperand_iff .permutations, ← natural_eq_zero_iff .permutations]
  have hread := FailsOnly.natural Fault.isReported_numeric Fault.isReported_outOfDomain
    .permutations
  rcases hx : natural .permutations x with fault | n
  · have hreported : fault ≠ .numeric .wordOverflow := hread _ _ hx
    simp [permutations, choice, hx, bind, Except.bind, hreported]
  rcases hy : natural .permutations y with fault | r
  · have hreported : fault ≠ .numeric .wordOverflow := hread _ _ hy
    simp [permutations, choice, hx, hy, bind, Except.bind, hreported]
  obtain ⟨m, -, -, hread⟩ := (natural_eq_ok_iff _).1 hx
  have hword := @largestOperand_lt_sub_add_one_iff n r (by omega)
  rw [Except.ok.injEq, Except.ok.injEq, ← hword, permutations, choice, hx, hy]
  dsimp only [bind, Except.bind]
  by_cases hchosen : n < r
  · have hfits : ¬largestOperand < n - r + 1 := by omega
    simp [hchosen, hfits]
  rw [if_neg hchosen]
  dsimp only
  by_cases hmany : mostFactors < r
  · have hfits : ¬largestOperand < n - r + 1 := by omega
    simp [hmany, hfits, overflow]
  by_cases hbroken : largestOperand < n - r + 1
  · simp [hmany, hbroken]
  · have hfinite := FailsOnly.finite Fault.isReported_numeric (.function .permutations)
    simp [hmany, hbroken, rounded, (hfinite _).ne_wordOverflow]

end Combinatorics

/-! ## Breaking off in a tree -/

/-- A function breaks off exactly if it is to choose nothing from `2 ^ 64` items in order. -/
theorem MathFunction.apply_eq_wordOverflow_iff {f : MathFunction} {vs : List Float} :
    f.apply vs = .error (.numeric .wordOverflow) ↔
      f = .permutations ∧ ∃ n r rest, vs = n :: r :: rest ∧
        Combinatorics.StandsFor n (2 ^ 64) ∧ Combinatorics.StandsFor r 0 := by
  constructor
  · intro h
    have hpermutations : f = .permutations := by
      by_contra hother
      exact (reports_apply hother vs).ne_wordOverflow h
    subst hpermutations
    match vs with
    | [] => cases h
    | [_] => cases h
    | n :: r :: rest =>
      exact ⟨rfl, n, r, rest, rfl, Combinatorics.permutations_eq_wordOverflow_iff.1 h⟩
  · rintro ⟨rfl, n, r, rest, rfl, hn, hr⟩
    exact Combinatorics.permutations_eq_wordOverflow_iff.2 ⟨hn, hr⟩

/-- Two steps fail in the first one, or in the second one after the value of the first. -/
theorem bind_eq_error_iff {α β : Type} {outcome : Except Fault α} {next : α → Except Fault β}
    {fault : Fault} :
    outcome >>= next = .error fault ↔
      outcome = .error fault ∨ ∃ a, outcome = .ok a ∧ next a = .error fault := by
  cases outcome with
  | error cause => simp [bind, Except.bind]
  | ok a => simp [bind, Except.bind]

namespace Expr

mutual

/-- The evaluation of a tree reaches a choice of nothing from `2 ^ 64` items. -/
def BreaksOff (lastResult : Float) : Expr → Prop
  | number _ => False
  | pi => False
  | answer => False
  | negate e => e.BreaksOff lastResult
  | binary _ l r =>
    l.BreaksOff lastResult ∨ (∃ a, value lastResult l = .ok a) ∧ r.BreaksOff lastResult
  | call f args =>
    AnyBreaksOff lastResult args ∨
      f = .permutations ∧ ∃ n r rest, valueAll lastResult args = .ok (n :: r :: rest) ∧
        Combinatorics.StandsFor n (2 ^ 64) ∧ Combinatorics.StandsFor r 0

/-- The evaluation of trees from left to right reaches such a choice. -/
def AnyBreaksOff (lastResult : Float) : List Expr → Prop
  | [] => False
  | e :: es =>
    e.BreaksOff lastResult ∨ (∃ a, value lastResult e = .ok a) ∧ AnyBreaksOff lastResult es

end

mutual

/-- The value of a tree breaks off exactly if its evaluation reaches a choice that does. -/
theorem value_eq_wordOverflow_iff (lastResult : Float) (e : Expr) :
    value lastResult e = .error (.numeric .wordOverflow) ↔ e.BreaksOff lastResult := by
  match e with
  | number v =>
    have hfinite := FailsOnly.finite Fault.isReported_numeric .literal v
    simp [value, BreaksOff, hfinite.ne_wordOverflow]
  | pi => simp [value, BreaksOff]
  | answer => simp [value, BreaksOff]
  | negate e =>
    rw [value, bind_eq_error_iff, value_eq_wordOverflow_iff lastResult e, BreaksOff]
    simp [pure, Except.pure]
  | binary op l r =>
    have hoperator := FailsOnly.operator Fault.isReported_numeric op
    rw [value, bind_eq_error_iff, value_eq_wordOverflow_iff lastResult l, BreaksOff]
    simp only [bind_eq_error_iff, value_eq_wordOverflow_iff lastResult r,
      (hoperator _ _).ne_wordOverflow, and_false, exists_false, or_false, exists_and_right]
  | call f args =>
    rw [value, bind_eq_error_iff, valueAll_eq_wordOverflow_iff lastResult args, BreaksOff]
    simp only [MathFunction.apply_eq_wordOverflow_iff]
    refine or_congr_right ⟨?_, ?_⟩
    · rintro ⟨_, hvalues, rfl, n, r, rest, rfl, hbounds⟩
      exact ⟨rfl, n, r, rest, hvalues, hbounds⟩
    · rintro ⟨rfl, n, r, rest, hvalues, hbounds⟩
      exact ⟨_, hvalues, rfl, n, r, rest, rfl, hbounds⟩

/-- The values of trees break off exactly if evaluating them reaches a choice that does. -/
theorem valueAll_eq_wordOverflow_iff (lastResult : Float) (es : List Expr) :
    valueAll lastResult es = .error (.numeric .wordOverflow) ↔ AnyBreaksOff lastResult es := by
  match es with
  | [] => simp [valueAll, AnyBreaksOff]
  | e :: es =>
    rw [valueAll, bind_eq_error_iff, value_eq_wordOverflow_iff lastResult e, AnyBreaksOff]
    simp [bind_eq_error_iff, valueAll_eq_wordOverflow_iff lastResult es, pure, Except.pure]

end

end Expr

end SciCalc
