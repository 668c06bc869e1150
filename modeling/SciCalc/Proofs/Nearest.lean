import Mathlib.Data.Nat.Dist
import SciCalc.Proofs.Decimals

/-!
# The nearest number

Rounding to a whole number goes to the nearest one and, from halfway, to the even one, and this
says all about it. A ratio is rounded to a magnitude by counting it in steps that leave 53 binary
digits. Every magnitude is on the grid of these steps or lies below all counts of 53 digits, so no
magnitude is nearer to the ratio than the one it is rounded to. A ratio up to some magnitude is
rounded to at most that magnitude, and a ratio from it on to at least that one.
-/

set_option autoImplicit false

namespace SciCalc.Binary64

/-! ## Whole numbers -/

section

variable {n d k : Nat} (hd : 0 < d)

include hd

/-- A ratio is rounded to a whole number at most a half away, and from halfway to an even one. -/
theorem roundHalfEven_spec (n : Nat) :
    2 * n ≤ 2 * (roundHalfEven n d * d) + d ∧ 2 * (roundHalfEven n d * d) ≤ 2 * n + d ∧
      (2 * n = 2 * (roundHalfEven n d * d) + d ∨ 2 * (roundHalfEven n d * d) = 2 * n + d →
        roundHalfEven n d % 2 = 0) := by
  have hdiv : n / d * d + n % d = n := Nat.div_add_mod' n d
  have hmod : n % d < d := Nat.mod_lt n hd
  have hnext : (n / d + 1) * d = n / d * d + d := Nat.succ_mul _ _
  simp only [roundHalfEven]
  split
  case isTrue hbelow => omega
  case isFalse hbelow =>
    split
    case isTrue habove =>
      rw [hnext]
      omega
    case isFalse habove =>
      rcases Nat.mod_two_eq_zero_or_one (n / d) with heven | hodd
      · rw [heven, Nat.add_zero]
        omega
      · rw [hodd, hnext]
        omega

/-- At most a count of wholes is rounded to at most that count. -/
theorem roundHalfEven_le (h : n ≤ k * d) : roundHalfEven n d ≤ k := by
  obtain ⟨-, hhigh, htie⟩ := roundHalfEven_spec hd n
  by_contra hlt
  have hnext : (k + 1) * d ≤ roundHalfEven n d * d := Nat.mul_le_mul_right d (by omega)
  rw [Nat.succ_mul] at hnext
  omega

/-- At least a count of wholes is rounded to at least that count. -/
theorem le_roundHalfEven (h : k * d ≤ n) : k ≤ roundHalfEven n d := by
  obtain ⟨hlow, -, -⟩ := roundHalfEven_spec hd n
  by_contra hlt
  have hnext : (roundHalfEven n d + 1) * d ≤ k * d := Nat.mul_le_mul_right d (by omega)
  rw [Nat.succ_mul] at hnext
  omega

/-- No whole number is nearer to a ratio than the one it is rounded to. -/
theorem dist_roundHalfEven_le (n k : Nat) :
    Nat.dist (roundHalfEven n d * d) n ≤ Nat.dist (k * d) n := by
  obtain ⟨hlow, hhigh, -⟩ := roundHalfEven_spec hd n
  simp only [Nat.dist]
  rcases Nat.lt_trichotomy k (roundHalfEven n d) with hlt | rfl | hgt
  · have hnext : (k + 1) * d ≤ roundHalfEven n d * d := Nat.mul_le_mul_right d hlt
    rw [Nat.succ_mul] at hnext
    omega
  · exact Nat.le_refl _
  · have hnext : (roundHalfEven n d + 1) * d ≤ k * d := Nat.mul_le_mul_right d hgt
    rw [Nat.succ_mul] at hnext
    omega

/--
What is as near to a whole number as the ratio that is rounded to it, is rounded to it too.
-/
theorem roundHalfEven_eq_of_dist_le {n' : Nat}
    (h : Nat.dist n' (roundHalfEven n d * d) ≤ Nat.dist n (roundHalfEven n d * d)) :
    roundHalfEven n' d = roundHalfEven n d := by
  obtain ⟨hlow, hhigh, htie⟩ := roundHalfEven_spec hd n
  obtain ⟨hlow', hhigh', htie'⟩ := roundHalfEven_spec hd n'
  simp only [Nat.dist] at h
  -- Two different whole numbers are a whole apart, so both ratios lie halfway, and both are even.
  rcases Nat.lt_trichotomy (roundHalfEven n' d) (roundHalfEven n d) with hlt | heq | hgt
  · have hnext : (roundHalfEven n' d + 1) * d ≤ roundHalfEven n d * d :=
      Nat.mul_le_mul_right d hlt
    rw [Nat.succ_mul] at hnext
    have hapart : (roundHalfEven n' d + 2) * d ≤ roundHalfEven n d * d := by
      exact Nat.mul_le_mul_right d (by omega)
    rw [Nat.add_mul] at hapart
    omega
  · exact heq
  · have hnext : (roundHalfEven n d + 1) * d ≤ roundHalfEven n' d * d :=
      Nat.mul_le_mul_right d hgt
    rw [Nat.succ_mul] at hnext
    have hapart : (roundHalfEven n d + 2) * d ≤ roundHalfEven n' d * d := by
      exact Nat.mul_le_mul_right d (by omega)
    rw [Nat.add_mul] at hapart
    omega

end

/-! ## Magnitudes -/

/-- The magnitude of a field, by its exponent and the rest. -/
theorem unitsOfField_parts {exponent rest : Nat} (h : rest < 2 ^ 52) :
    unitsOfField (exponent * Nat.pow 2 52 + rest) =
      if exponent = 0 then rest else (2 ^ 52 + rest) * 2 ^ (exponent - 1) := by
  have hdiv : (exponent * 2 ^ 52 + rest) / 2 ^ 52 = exponent := by omega
  have hmod : (exponent * 2 ^ 52 + rest) % 2 ^ 52 = rest := by omega
  simp only [unitsOfField, Nat.pow_eq, hdiv, hmod]
  split
  case isTrue hzero => rw [hzero, Nat.zero_mul, Nat.zero_add]
  case isFalse => rfl

/-- Every field has an exponent and a rest. -/
theorem exists_parts (bits : Nat) :
    ∃ exponent rest, rest < 2 ^ 52 ∧ bits = exponent * Nat.pow 2 52 + rest := by
  refine ⟨bits / 2 ^ 52, bits % 2 ^ 52, Nat.mod_lt _ (by decide), ?_⟩
  rw [Nat.pow_eq]
  omega

/-- Steps of a power of two, at most `2 ^ 53` and, above the first ones, at least `2 ^ 52`. -/
theorem unitsOfField_steps {shift steps : Nat} (hhigh : steps ≤ 2 ^ 53)
    (hlow : shift = 0 ∨ 2 ^ 52 ≤ steps) :
    unitsOfField (shift * Nat.pow 2 52 + steps) = steps * 2 ^ shift := by
  rcases Nat.lt_or_ge steps (2 ^ 52) with hsmall | hlarge
  · obtain rfl : shift = 0 := by omega
    rw [unitsOfField_parts hsmall, if_pos rfl, Nat.pow_zero, Nat.mul_one]
  rcases Nat.lt_or_ge steps (2 ^ 53) with hfits | hfull
  · have hbits : shift * Nat.pow 2 52 + steps = (shift + 1) * Nat.pow 2 52 + (steps - 2 ^ 52) := by
      rw [Nat.pow_eq]
      omega
    rw [hbits, unitsOfField_parts (by omega), if_neg (by omega), Nat.add_sub_cancel' hlarge,
      Nat.add_sub_cancel]
  · obtain rfl : steps = 2 ^ 53 := Nat.le_antisymm hhigh hfull
    have hbits : shift * Nat.pow 2 52 + 2 ^ 53 = (shift + 2) * Nat.pow 2 52 + 0 := by
      rw [Nat.pow_eq]
      omega
    rw [hbits, unitsOfField_parts (by decide), if_neg (by omega), Nat.add_zero, ← Nat.pow_add,
      ← Nat.pow_add]
    congr 1
    omega

/-- Steps of `2 ^ k` wholes, if they have 53 digits. -/
theorem unitsOfField_wholes {steps : Nat} (hlow : 2 ^ 52 ≤ steps) (hhigh : steps ≤ 2 ^ 53)
    (k : Nat) :
    unitsOfField ((1074 + k) * Nat.pow 2 52 + steps) = steps * 2 ^ k * unitsPerOne := by
  unfold unitsPerOne
  -- Nothing about the least unit matters but that both sides have the same.
  generalize (1074 : Nat) = least
  rw [unitsOfField_steps hhigh (.inr hlow), Nat.pow_eq, Nat.pow_add, Nat.mul_assoc,
    Nat.mul_comm (2 ^ least)]

/-- The largest magnitude is a whole number. -/
theorem unitsOfField_largest :
    unitsOfField (infinityField - 1) = (2 ^ 53 - 1) * 2 ^ 971 * unitsPerOne := by
  have hbits : infinityField - 1 = (1074 + 971) * Nat.pow 2 52 + (2 ^ 53 - 1) := by decide
  rw [hbits, unitsOfField_wholes (by decide) (by decide)]

/-- Infinity stands where the next power of two would. -/
theorem unitsOfField_infinityField :
    unitsOfField infinityField = 2 ^ 1024 * unitsPerOne := by
  have hbits : infinityField = (1074 + 972) * Nat.pow 2 52 + 2 ^ 52 := by decide
  have hpower : 2 ^ 52 * 2 ^ 972 = 2 ^ 1024 := by decide +kernel
  rw [hbits, unitsOfField_wholes (Nat.le_refl _) (by decide), hpower]

/-- A magnitude is on the grid of a power of two, or it is below all counts of 53 digits of it. -/
theorem unitsOfField_on_grid (bits shift : Nat) :
    (∃ steps, unitsOfField bits = steps * 2 ^ shift) ∨
      0 < shift ∧ unitsOfField bits < 2 ^ 52 * 2 ^ shift := by
  obtain ⟨exponent, rest, hrest, rfl⟩ := exists_parts bits
  rw [unitsOfField_parts hrest]
  rcases Nat.eq_zero_or_pos shift with rfl | hshift
  · exact .inl ⟨_, (Nat.mul_one _).symm⟩
  rcases Nat.lt_or_ge (exponent - 1) shift with hbelow | habove
  · right
    refine ⟨hshift, ?_⟩
    have hfull : 2 ^ 53 * 2 ^ (shift - 1) = 2 ^ 52 * 2 ^ shift := by
      rw [← Nat.pow_add, ← Nat.pow_add]
      congr 1
      omega
    split
    case isTrue => exact Nat.lt_of_lt_of_le hrest (Nat.le_mul_of_pos_right _ (Nat.two_pow_pos _))
    case isFalse =>
      rw [← hfull]
      have hscale : 2 ^ (exponent - 1) ≤ 2 ^ (shift - 1) :=
        Nat.pow_le_pow_right (by decide) (by omega)
      exact Nat.lt_of_lt_of_le (Nat.mul_lt_mul_of_pos_right (by omega) (Nat.two_pow_pos _))
        (Nat.mul_le_mul_left _ hscale)
  · left
    have hnormal : exponent ≠ 0 := by omega
    refine ⟨(2 ^ 52 + rest) * 2 ^ (exponent - 1 - shift), ?_⟩
    rw [if_neg hnormal, Nat.mul_assoc, ← Nat.pow_add, Nat.sub_add_cancel habove]

/-- A larger field has a larger magnitude. -/
theorem unitsOfField_strictMono : StrictMono unitsOfField := by
  refine strictMono_nat_of_lt_succ fun bits => ?_
  obtain ⟨exponent, rest, hrest, rfl⟩ := exists_parts bits
  rcases Nat.lt_or_ge (rest + 1) (2 ^ 52) with hfits | hfull
  · rw [Nat.add_assoc, unitsOfField_parts hrest, unitsOfField_parts hfits]
    split
    case isTrue => exact Nat.lt_succ_self rest
    case isFalse => exact Nat.mul_lt_mul_of_pos_right (by omega) (Nat.two_pow_pos _)
  · have hnext : exponent * Nat.pow 2 52 + rest + 1 = (exponent + 1) * Nat.pow 2 52 + 0 := by
      rw [Nat.pow_eq]
      omega
    rw [hnext, unitsOfField_parts hrest, unitsOfField_parts (by decide),
      if_neg (Nat.succ_ne_zero exponent), Nat.add_sub_cancel]
    split
    case isTrue hzero =>
      rw [hzero]
      omega
    case isFalse hnormal =>
      have hdouble : 2 ^ exponent = 2 * 2 ^ (exponent - 1) := by
        rw [← Nat.pow_succ']
        congr 1
        omega
      rw [hdouble, ← Nat.mul_assoc]
      exact Nat.mul_lt_mul_of_pos_right (by omega) (Nat.two_pow_pos _)

/-- The steps leave at most 53 digits of a quotient, and all 53 above the first ones. -/
theorem shift_spec (quotient : Nat) :
    quotient < 2 ^ 53 * 2 ^ (quotient.log2 - 52) ∧
      (quotient.log2 - 52 = 0 ∨ 2 ^ 52 * 2 ^ (quotient.log2 - 52) ≤ quotient) := by
  have hhigh : quotient < 2 ^ (quotient.log2 + 1) := Nat.lt_log2_self
  rw [← Nat.pow_add, ← Nat.pow_add]
  refine ⟨Nat.lt_of_lt_of_le hhigh (Nat.pow_le_pow_right (by decide) (by omega)), ?_⟩
  rcases Nat.lt_or_ge 52 quotient.log2 with hlarge | hsmall
  · right
    have hzero : quotient ≠ 0 := by
      rintro rfl
      exact absurd hlarge (by decide)
    have hexponent : 52 + (quotient.log2 - 52) = quotient.log2 := by omega
    rw [hexponent]
    exact Nat.log2_self_le hzero
  · left
    omega

/-! ## Ratios -/

section

variable {num den : Nat} (hden : 0 < den)

include hden

/-- A ratio is rounded to a count of steps, of which all 53 digits are left above the first. -/
theorem exists_steps (num : Nat) : ∃ shift,
    let steps := roundHalfEven (num * unitsPerOne) (den * 2 ^ shift)
    nearestField num den = min infinityField (shift * Nat.pow 2 52 + steps) ∧
      unitsOfField (shift * Nat.pow 2 52 + steps) = steps * 2 ^ shift ∧
      (shift = 0 ∨ 2 ^ 52 * 2 ^ shift * den ≤ num * unitsPerOne) := by
  obtain ⟨hhigh, hlow⟩ := shift_spec (num * unitsPerOne / den)
  rw [Nat.div_lt_iff_lt_mul hden] at hhigh
  rw [Nat.le_div_iff_mul_le hden] at hlow
  refine ⟨(num * unitsPerOne / den).log2 - 52, rfl, ?_, hlow⟩
  generalize (num * unitsPerOne / den).log2 - 52 = shift at hhigh hlow ⊢
  have hpos : 0 < den * 2 ^ shift := Nat.mul_pos hden (Nat.two_pow_pos _)
  have hregroup (k : Nat) : k * (den * 2 ^ shift) = k * 2 ^ shift * den := by
    rw [Nat.mul_comm den, Nat.mul_assoc]
  refine unitsOfField_steps (roundHalfEven_le hpos ?_) (hlow.imp_right fun hlow => ?_)
  · rw [hregroup]
    exact Nat.le_of_lt hhigh
  · refine le_roundHalfEven hpos ?_
    rw [hregroup]
    exact hlow

/-- A ratio up to a magnitude is rounded to at most that magnitude. -/
theorem nearestField_le {bits : Nat} (h : num * unitsPerOne ≤ unitsOfField bits * den) :
    nearestField num den ≤ bits := by
  obtain ⟨shift, hfield, hunits, hlow⟩ := exists_steps hden num
  have hpos : 0 < den * 2 ^ shift := Nat.mul_pos hden (Nat.two_pow_pos _)
  have hsteps : roundHalfEven (num * unitsPerOne) (den * 2 ^ shift) * 2 ^ shift ≤
      unitsOfField bits := by
    rcases unitsOfField_on_grid bits shift with ⟨steps, hgrid⟩ | ⟨hshift, hsmall⟩
    · rw [hgrid] at h ⊢
      refine Nat.mul_le_mul_right _ (roundHalfEven_le hpos ?_)
      rw [Nat.mul_comm den, ← Nat.mul_assoc]
      exact h
    · rcases hlow with hzero | hlow
      · omega
      · exact absurd (Nat.le_of_mul_le_mul_right (Nat.le_trans hlow h) hden) (Nat.not_le.2 hsmall)
  rw [← hunits, unitsOfField_strictMono.le_iff_le] at hsteps
  rw [hfield]
  exact Nat.le_trans (Nat.min_le_right _ _) hsteps

/-- A ratio from some magnitude on is rounded to at least that magnitude. -/
theorem le_nearestField {bits : Nat} (hbits : bits ≤ infinityField)
    (h : unitsOfField bits * den ≤ num * unitsPerOne) : bits ≤ nearestField num den := by
  obtain ⟨shift, hfield, hunits, hlow⟩ := exists_steps hden num
  have hpos : 0 < den * 2 ^ shift := Nat.mul_pos hden (Nat.two_pow_pos _)
  have hregroup (k : Nat) : k * (den * 2 ^ shift) = k * 2 ^ shift * den := by
    rw [Nat.mul_comm den, Nat.mul_assoc]
  have hsteps : unitsOfField bits ≤
      roundHalfEven (num * unitsPerOne) (den * 2 ^ shift) * 2 ^ shift := by
    rcases unitsOfField_on_grid bits shift with ⟨steps, hgrid⟩ | ⟨hshift, hsmall⟩
    · rw [hgrid] at h ⊢
      refine Nat.mul_le_mul_right _ (le_roundHalfEven hpos ?_)
      rw [hregroup]
      exact h
    · -- The ratio has at least `2 ^ 52` steps, and the magnitude has fewer.
      refine Nat.le_trans (Nat.le_of_lt hsmall) (Nat.mul_le_mul_right _ (le_roundHalfEven hpos ?_))
      rw [hregroup]
      exact hlow.resolve_left (by omega)
  rw [← hunits, unitsOfField_strictMono.le_iff_le] at hsteps
  rw [hfield]
  exact Nat.le_min.2 ⟨hbits, hsteps⟩

/-- No magnitude is nearer to a ratio than the one it is rounded to. -/
theorem dist_nearestField_le (hfinite : nearestField num den < infinityField) (bits : Nat) :
    Nat.dist (unitsOfField (nearestField num den) * den) (num * unitsPerOne) ≤
      Nat.dist (unitsOfField bits * den) (num * unitsPerOne) := by
  obtain ⟨shift, hfield, hunits, hlow⟩ := exists_steps hden num
  have hpos : 0 < den * 2 ^ shift := Nat.mul_pos hden (Nat.two_pow_pos _)
  have hregroup (k : Nat) : k * 2 ^ shift * den = k * (den * 2 ^ shift) := by
    rw [Nat.mul_comm den, Nat.mul_assoc]
  have hmin : nearestField num den = shift * Nat.pow 2 52 +
      roundHalfEven (num * unitsPerOne) (den * 2 ^ shift) := by
    rw [hfield] at hfinite ⊢
    omega
  rw [hmin, hunits, hregroup]
  rcases unitsOfField_on_grid bits shift with ⟨steps, hgrid⟩ | ⟨hshift, hsmall⟩
  · rw [hgrid, hregroup]
    exact dist_roundHalfEven_le hpos _ steps
  · -- The count `2 ^ 52` of steps lies between that magnitude and the ratio.
    have hlow : 2 ^ 52 * 2 ^ shift * den ≤ num * unitsPerOne := hlow.resolve_left (by omega)
    have hbelow : unitsOfField bits * den ≤ 2 ^ 52 * 2 ^ shift * den :=
      Nat.mul_le_mul_right den (Nat.le_of_lt hsmall)
    have hbetween := dist_roundHalfEven_le hpos (num * unitsPerOne) (2 ^ 52)
    rw [← hregroup (2 ^ 52)] at hbetween
    refine Nat.le_trans hbetween ?_
    rw [Nat.dist_eq_sub_of_le hlow, Nat.dist_eq_sub_of_le (Nat.le_trans hbelow hlow)]
    exact Nat.sub_le_sub_left hbelow _

end

end SciCalc.Binary64
