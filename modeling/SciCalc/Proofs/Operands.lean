import SciCalc.Combinatorics
import SciCalc.Proofs.Comparing
import SciCalc.Proofs.Nearest

/-!
# Operands of the counting functions

A finite number below `2 ^ 64` stands for a natural number, or it is negative or not whole. In the
first case a counting function reads that natural number, and comparing two such numbers compares
what they stand for. In the second it refuses the operand as outside its domain. Near `2 ^ 64` the
numbers are 2048 apart, so what is read leaves room above it in a word of 64 bits.
-/

set_option autoImplicit false

namespace SciCalc.Combinatorics

open Binary64

/-! ## What an operand stands for -/

/-- The number is finite and equals a natural number; both zeros stand for zero. -/
structure StandsFor (x : Float) (n : Nat) : Prop where
  isFinite : x.isFinite = true
  not_neg : ¬x < 0
  units_eq : units x = n * unitsPerOne

/-- The number is negative or not whole. -/
def NotNatural (x : Float) : Prop := x < 0 ∨ ¬unitsPerOne ∣ units x

variable {x y : Float} {n r : Nat}

/-- What is not below zero has its field for its place. -/
theorem place_eq_field (hx : x.isFinite = true) (hneg : ¬x < 0) : place x = field x := by
  have hzero : place (0 : Float) = 0 := by decide +kernel
  rw [lt_iff_place hx (by decide +kernel), hzero] at hneg
  rcases signOf_cases x with ⟨-, h⟩ | ⟨-, h⟩ <;> omega

/-- An operand that is not negative and whole stands for a natural number. -/
theorem exists_standsFor (hx : x.isFinite = true) (h : ¬NotNatural x) : ∃ n, StandsFor x n := by
  obtain ⟨hneg, hwhole⟩ := not_or.1 h
  obtain ⟨n, hn⟩ := not_not.1 hwhole
  exact ⟨n, hx, hneg, by rw [hn, Nat.mul_comm]⟩

namespace StandsFor

/-- Operands are in the order of what they stand for. -/
theorem lt_iff (hx : StandsFor x n) (hy : StandsFor y r) : x < y ↔ n < r := by
  have hfields : field x < field y ↔ units x < units y :=
    unitsOfField_strictMono.lt_iff_lt.symm
  rw [lt_iff_place hx.isFinite hy.isFinite, place_eq_field hx.isFinite hx.not_neg,
    place_eq_field hy.isFinite hy.not_neg, Int.ofNat_lt, hfields, hx.units_eq, hy.units_eq]
  exact Nat.mul_lt_mul_right Decimal.unitsPerOne_pos

/-- An operand below `2 ^ 64` stands for a natural number below it. -/
theorem lt_of_lt (hx : StandsFor x n) (h : x < 18446744073709551616) : n < 2 ^ 64 := by
  have hbound : StandsFor 18446744073709551616 (2 ^ 64) :=
    ⟨by decide +kernel, by decide +kernel, by decide +kernel⟩
  exact (hx.lt_iff hbound).1 h

/-- The numbers next to `2 ^ 64` leave 2048 natural numbers free below it. -/
theorem add_le (hx : StandsFor x n) (h : n < 2 ^ 64) : n + 2 ^ 11 ≤ 2 ^ 64 := by
  have hbound : unitsOfField ((1074 + 11) * Nat.pow 2 52 + (2 ^ 53 - 1) + 1) =
      2 ^ 64 * unitsPerOne := by
    have hpower : (2 ^ 53 - 1 + 1) * 2 ^ 11 = 2 ^ 64 := by decide
    rw [Nat.add_assoc, unitsOfField_wholes (by decide) (by decide), hpower]
  have hlast : unitsOfField ((1074 + 11) * Nat.pow 2 52 + (2 ^ 53 - 1)) =
      (2 ^ 53 - 1) * 2 ^ 11 * unitsPerOne := unitsOfField_wholes (by decide) (by decide) 11
  have hfield : field x < (1074 + 11) * Nat.pow 2 52 + (2 ^ 53 - 1) + 1 := by
    rw [← unitsOfField_strictMono.lt_iff_lt, hbound]
    show units x < _
    rw [hx.units_eq]
    exact Nat.mul_lt_mul_of_pos_right h Decimal.unitsPerOne_pos
  have hunits : n * unitsPerOne ≤ (2 ^ 53 - 1) * 2 ^ 11 * unitsPerOne := by
    rw [← hlast, ← hx.units_eq]
    exact unitsOfField_strictMono.monotone (Nat.le_of_lt_succ hfield)
  have hle : n ≤ (2 ^ 53 - 1) * 2 ^ 11 := Nat.le_of_mul_le_mul_right hunits Decimal.unitsPerOne_pos
  omega

end StandsFor

/-! ## Reading operands -/

variable (f : MathFunction)

/-- An operand is read as the natural number it stands for, and `2 ^ 64` as the word before it. -/
theorem natural_eq_ok_iff :
    natural f x = .ok n ↔ ∃ m ≤ 2 ^ 64, StandsFor x m ∧ n = min m largestOperand := by
  constructor
  · intro h
    by_cases hdomain : ¬x.isFinite = true ∨ x < 0
    · rw [natural, if_pos hdomain] at h
      cases h
    rw [natural, if_neg hdomain] at h
    obtain ⟨hfinite, hneg⟩ := not_or.1 hdomain
    by_cases hwhole : units x % unitsPerOne = 0
    · rw [wholeMagnitude?, if_pos hwhole] at h
      dsimp only at h
      split at h
      case isTrue => cases h
      case isFalse hsmall =>
        have hunits := (Nat.div_mul_cancel (Nat.dvd_of_mod_eq_zero hwhole)).symm
        exact ⟨units x / unitsPerOne, Nat.not_lt.1 hsmall, ⟨not_not.1 hfinite, hneg, hunits⟩,
          (Except.ok.inj h).symm⟩
    · rw [wholeMagnitude?, if_neg hwhole] at h
      cases h
  · rintro ⟨m, hm, hx, rfl⟩
    have hread : wholeMagnitude? x = some m := by
      rw [wholeMagnitude?, hx.units_eq, Nat.mul_mod_left, if_pos rfl,
        Nat.mul_div_cancel _ Decimal.unitsPerOne_pos]
    have hdomain : ¬(¬x.isFinite = true ∨ x < 0) := not_or.2 ⟨not_not.2 hx.isFinite, hx.not_neg⟩
    rw [natural, if_neg hdomain, hread]
    exact if_neg (Nat.not_lt.2 hm)

/-- A natural operand below `2 ^ 64` is read as what it stands for. -/
theorem natural_eq_ok (hx : StandsFor x n) (hn : n < 2 ^ 64) : natural f x = .ok n :=
  (natural_eq_ok_iff f).2
    ⟨n, Nat.le_of_lt hn, hx, (Nat.min_eq_left (Nat.le_sub_one_of_lt hn)).symm⟩

/-- An operand that is negative or not whole is refused. -/
theorem natural_eq_error (hx : NotNatural x) :
    natural f x = .error (.outOfDomain (.notNatural f x)) := by
  rcases hx with hneg | hwhole
  · rw [natural, if_pos (.inr hneg)]
  · have hread : wholeMagnitude? x = none := by
      rw [wholeMagnitude?, if_neg fun h => hwhole (Nat.dvd_of_mod_eq_zero h)]
    rw [natural, hread]
    dsimp only
    rw [ite_self]

/-- Two natural operands in order are read as what they stand for. -/
theorem choice_eq_ok (hx : StandsFor x n) (hy : StandsFor y r) (hle : r ≤ n) (hn : n < 2 ^ 64) :
    choice f x y = .ok (n, r) := by
  rw [choice, natural_eq_ok f hx hn, natural_eq_ok f hy (Nat.lt_of_le_of_lt hle hn)]
  exact if_neg (Nat.not_lt.2 hle)

/--
Operands below `2 ^ 64` that are out of order, negative or not whole are refused, and the fault
names one of them or their negative difference.
-/
theorem choice_eq_error (hx : x.isFinite = true) (hy : y.isFinite = true)
    (hxs : x < 18446744073709551616) (hys : y < 18446744073709551616)
    (h : x < y ∨ NotNatural x ∨ NotNatural y) :
    ∃ cause ∈ [DomainFault.notNatural f x, .notNatural f y, .tooManyChosen f (x - y)],
      choice f x y = .error (.outOfDomain cause) := by
  by_cases hnotx : NotNatural x
  · refine ⟨.notNatural f x, by simp, ?_⟩
    rw [choice, natural_eq_error f hnotx]
    rfl
  obtain ⟨n, hn⟩ := exists_standsFor hx hnotx
  have hreadx := natural_eq_ok f hn (hn.lt_of_lt hxs)
  by_cases hnoty : NotNatural y
  · refine ⟨.notNatural f y, by simp, ?_⟩
    rw [choice, hreadx, natural_eq_error f hnoty]
    rfl
  obtain ⟨r, hr⟩ := exists_standsFor hy hnoty
  have hlt : n < r := (hn.lt_iff hr).1 (h.resolve_right (not_or.2 ⟨hnotx, hnoty⟩))
  refine ⟨.tooManyChosen f (x - y), by simp, ?_⟩
  rw [choice, hreadx, natural_eq_ok f hr (hr.lt_of_lt hys)]
  exact if_pos hlt

end SciCalc.Combinatorics
