import SciCalc.Proofs.Evaluating
import SciCalc.Proofs.Operands

/-!
# Exact counts

The counting functions compute whole numbers and round once, at the end. A product of consecutive
factors is a quotient of factorials. When combinations are counted, what has been multiplied and
divided so far is itself a number of combinations, so no division leaves a remainder. The two limits
refuse only what is at least `2 ^ 1024`, and no finite number is that large: the product of more
than 170 factors is at least `171!`, and with more than 1100 items both chosen and left out there
are at least as many combinations as in the central case. So every answer is the rounded count, with
the limits or without.
-/

set_option autoImplicit false

namespace SciCalc.Combinatorics

open Binary64
open scoped Nat

/-! ## Counts that a number can hold -/

/-- Some finite number is at least as large as the count. -/
def Fits (count : Nat) : Prop := ∃ v : Float, v.isFinite = true ∧ count * unitsPerOne ≤ units v

variable {count : Nat}

/-- A count that fits is at most the largest number. -/
theorem Fits.le (h : Fits count) :
    count * unitsPerOne ≤ unitsOfField (infinityField - 1) := by
  obtain ⟨v, hv, hle⟩ := h
  have hfield : field v ≤ infinityField - 1 := Nat.le_sub_one_of_lt ((isFinite_iff v).1 hv)
  exact Nat.le_trans hle (unitsOfField_strictMono.monotone hfield)

/-- No finite number is as large as `2 ^ 1024`. -/
theorem not_fits (h : 2 ^ 1024 ≤ count) : ¬Fits count := by
  intro hfits
  have hlast : infinityField - 1 < infinityField := by decide
  have hlarge : unitsOfField infinityField ≤ count * unitsPerOne := by
    rw [unitsOfField_infinityField]
    exact Nat.mul_le_mul_right _ h
  exact absurd (Nat.le_trans hlarge hfits.le) (Nat.not_le.2 (unitsOfField_strictMono hlast))

variable (f : MathFunction)

/-- A count that fits is answered with the number nearest to it. -/
theorem rounded_of_fits (h : Fits count) : rounded f count = .ok (ofNat count) := by
  have hfield : nearestField count 1 ≤ infinityField - 1 := by
    refine nearestField_le Nat.one_pos ?_
    rw [Nat.mul_one]
    exact h.le
  have hfinite : nearestField count 1 < infinityField :=
    Nat.lt_of_le_of_lt hfield (by decide)
  exact finite_eq_ok_iff.2 ⟨(unpack_ofField hfinite false).1, rfl⟩

/-- A count from `2 ^ 1024` on overflows when it is rounded. -/
theorem rounded_of_le (h : 2 ^ 1024 ≤ count) : rounded f count = overflow f := by
  have hfield : nearestField count 1 = infinityField := by
    refine Nat.le_antisymm (Nat.min_le_left _ _) (le_nearestField Nat.one_pos (Nat.le_refl _) ?_)
    rw [unitsOfField_infinityField, Nat.mul_one]
    exact Nat.mul_le_mul_right _ h
  have hinfinity : (ofField false infinityField).isNaN = false ∧
      (ofField false infinityField).isInf = true := by decide +kernel
  rw [rounded, ofNat, nearest, hfield, finite, hinfinity.1, hinfinity.2]
  rfl

/-! ## Factorials and permutations -/

/-- The product of the factors above `m` is a quotient of factorials. -/
theorem productAbove_eq (m i : Nat) : productAbove m i = (m + i)! / m ! := by
  have hfactors : productAbove m i = (m + 1).ascFactorial i := by
    induction i with
    | zero => rfl
    | succ i ih =>
      rw [productAbove, ih, Nat.ascFactorial_succ, Nat.mul_comm, Nat.add_right_comm]
  rw [hfactors, Nat.ascFactorial_eq_div]

/-- The first factors make a factorial. -/
theorem productAbove_zero (n : Nat) : productAbove 0 n = n ! := by
  rw [productAbove_eq, Nat.zero_add, Nat.factorial_zero, Nat.div_one]

/-- The product of a range of factors, of which those below two are left out. -/
theorem prod_Icc_eq_productAbove (m i : Nat) :
    ∏ k ∈ Finset.Icc (max (m + 1) 2) (m + i), k = productAbove m i := by
  have hall : ∏ k ∈ Finset.Icc (m + 1) (m + i), k = productAbove m i := by
    induction i with
    | zero => simp [productAbove]
    | succ i ih =>
      have hstart : m + 1 ≤ m + i + 1 := by omega
      rw [productAbove, ← ih, ← Nat.add_assoc, Finset.prod_Icc_succ_top hstart]
  rw [← hall]
  refine Finset.prod_subset (Finset.Icc_subset_Icc (Nat.le_max_left _ _) (Nat.le_refl _)) ?_
  intro k hk hleft
  rw [Finset.mem_Icc] at hk hleft
  omega

/-- The least factorial that is refused exceeds `2 ^ 1024`. -/
theorem two_pow_lt_factorial : 2 ^ 1024 < 171 ! := by decide +kernel

section

variable {n r : Nat} (h : r ≤ n)

include h

/-- The product of the last `r` factors of `n!`. -/
theorem productAbove_sub : productAbove (n - r) r = n ! / (n - r)! := by
  rw [productAbove_eq, Nat.sub_add_cancel h]

/-- With more than 170 chosen there are at least `171!` ordered choices. -/
theorem factorial_le_of_mostFactors (hlimit : mostFactors < r) : 171 ! ≤ n ! / (n - r)! := by
  have horders : r ! ≤ n ! / (n - r)! := by
    rw [← Nat.descFactorial_eq_div h, Nat.descFactorial_eq_factorial_mul_choose]
    exact Nat.le_mul_of_pos_right _ (Nat.choose_pos h)
  exact Nat.le_trans (Nat.factorial_le hlimit) horders

end

/-! ## Combinations -/

/-- What has been multiplied and divided so far is a number of combinations. -/
theorem chooseAbove_eq (m i : Nat) : chooseAbove m i = (m + i).choose i := by
  induction i with
  | zero => simp [chooseAbove]
  | succ i ih =>
    rw [chooseAbove, ih, Nat.mul_comm, Nat.add_one_mul_choose_eq, Nat.add_assoc]
    exact Nat.mul_div_cancel _ (Nat.succ_pos i)

/-- The next factor makes the product divisible. -/
theorem dvd_chooseAbove_mul (m i : Nat) : i + 1 ∣ chooseAbove m i * (m + i + 1) := by
  rw [chooseAbove_eq, Nat.mul_comm, Nat.add_one_mul_choose_eq]
  exact Nat.dvd_mul_left _ _

/-- A central number of combinations is larger than the power of two. -/
theorem two_pow_lt_centralBinom {k : Nat} (hk : 4 ≤ k) : 2 ^ k < k.centralBinom := by
  have hfour : 2 ^ k * 2 ^ k < 2 ^ k * k.centralBinom :=
    calc 2 ^ k * 2 ^ k = 4 ^ k := (Nat.mul_pow 2 2 k).symm
      _ < k * k.centralBinom := Nat.four_pow_lt_mul_centralBinom k hk
      _ ≤ 2 ^ k * k.centralBinom := Nat.mul_le_mul_right _ (Nat.le_of_lt Nat.lt_two_pow_self)
  exact Nat.lt_of_mul_lt_mul_left hfour

section

variable {n r : Nat} (h : r ≤ n)

include h

/-- As many combinations leave a number of items out as choose it. -/
theorem choose_min : n.choose (min r (n - r)) = n.choose r := by
  rcases Nat.le_total r (n - r) with hle | hle
  · rw [Nat.min_eq_left hle]
  · rw [Nat.min_eq_right hle, Nat.choose_symm h]

/-- After as many steps as are chosen or left out, it is the number of combinations asked for. -/
theorem chooseAbove_sub :
    chooseAbove (n - min r (n - r)) (min r (n - r)) = n.choose r := by
  rw [chooseAbove_eq, Nat.sub_add_cancel (by omega), choose_min h]

/-- More than 1100 items chosen and left out have at least `2 ^ 1024` combinations. -/
theorem two_pow_le_choose (hk : mostChosen < min r (n - r)) : 2 ^ 1024 ≤ n.choose r := by
  rw [← choose_min h]
  have hdouble : 2 * min r (n - r) ≤ n := by omega
  have hlarge : 1100 < min r (n - r) := hk
  generalize min r (n - r) = k at hdouble hlarge ⊢
  have hexponent : 1024 ≤ k := by omega
  have hcentral : 2 ^ k < k.centralBinom := two_pow_lt_centralBinom (by omega)
  have hchoose : k.centralBinom ≤ n.choose k := by
    rw [Nat.centralBinom_eq_two_mul_choose]
    exact Nat.choose_le_choose k hdouble
  exact Nat.le_trans (pow_le_pow_right₀ one_le_two hexponent)
    (Nat.le_of_lt (Nat.lt_of_lt_of_le hcentral hchoose))

end

/-! ## Answers -/

section

variable {x y : Float} {n r : Nat}

/-- A natural operand of a factorial is answered with its rounded factorial. -/
theorem factorial_eq_rounded (hx : StandsFor x n) (hn : n < 2 ^ 64) :
    factorial x = rounded .factorial n ! := by
  have hread := natural_eq_ok .factorial hx hn
  by_cases hlimit : mostFactors < n
  · have hlarge : 2 ^ 1024 ≤ n ! :=
      Nat.le_trans (Nat.le_of_lt two_pow_lt_factorial) (Nat.factorial_le hlimit)
    rw [factorial, hread, rounded_of_le _ hlarge]
    exact if_pos hlimit
  · rw [factorial, hread, ← productAbove_zero]
    exact if_neg hlimit

section

variable (hx : StandsFor x n) (hy : StandsFor y r) (hle : r ≤ n) (hn : n < 2 ^ 64)

include hx hy hle hn

/-- Natural operands of permutations are answered with the rounded quotient of factorials. -/
theorem permutations_eq_rounded : permutations x y = rounded .permutations (n ! / (n - r)!) := by
  have hread := choice_eq_ok .permutations hx hy hle hn
  have hword : ¬largestOperand < n - r + 1 := by
    have hroom := hx.add_le hn
    have hlargest : largestOperand = 2 ^ 64 - 1 := rfl
    omega
  by_cases hlimit : mostFactors < r
  · have hlarge : 2 ^ 1024 ≤ n ! / (n - r)! :=
      Nat.le_trans (Nat.le_of_lt two_pow_lt_factorial) (factorial_le_of_mostFactors hle hlimit)
    rw [permutations, hread, rounded_of_le _ hlarge]
    exact if_pos hlimit
  · rw [permutations, hread, ← productAbove_sub hle]
    exact (if_neg hlimit).trans (if_neg hword)

/-- Natural operands of combinations are answered with the rounded binomial coefficient. -/
theorem combinations_eq_rounded : combinations x y = rounded .combinations (n.choose r) := by
  have hread := choice_eq_ok .combinations hx hy hle hn
  by_cases hlimit : mostChosen < min r (n - r)
  · rw [combinations, hread, rounded_of_le _ (two_pow_le_choose hle hlimit)]
    exact if_pos hlimit
  · rw [combinations, hread, ← chooseAbove_sub hle]
    exact if_neg hlimit

end

/--
Combinations are counted exactly, and the limit refuses only counts that no number can hold. What
has been multiplied and divided so far is a binomial coefficient, so every division is exact, and no
sum or difference on the way leaves a word of 64 bits. Operands that are out of order, negative or
not whole are refused as outside the domain.
-/
theorem combinations_count_exactly (x y : Float) :
    (∀ n r : Nat, r ≤ n → n < 2 ^ 64 → StandsFor x n → StandsFor y r →
      let k := min r (n - r)
      k ≤ n ∧ (∀ i ≤ k, n - k + i < 2 ^ 64) ∧
      (∀ i ≤ k, chooseAbove (n - k) i = (n - k + i).choose i) ∧
      (∀ i < k, i + 1 ∣ chooseAbove (n - k) i * (n - k + i + 1)) ∧
      chooseAbove (n - k) k = n.choose r ∧
      combinations x y = rounded .combinations (n.choose r) ∧
      (mostChosen < k → combinations x y = overflow .combinations ∧
        2 ^ 1024 ≤ n.choose r ∧ ¬Fits (n.choose r))) ∧
    (x.isFinite = true → y.isFinite = true →
      x < 18446744073709551616 → y < 18446744073709551616 →
      x < y ∨ NotNatural x ∨ NotNatural y →
      ∃ cause, combinations x y = .error (.outOfDomain cause)) := by
  constructor
  · intro n r hle hn hx hy k
    have hk : k ≤ n := by omega
    have hanswer := combinations_eq_rounded hx hy hle hn
    refine ⟨hk, fun i hi => by omega, fun i _ => chooseAbove_eq _ i,
      fun i _ => dvd_chooseAbove_mul _ i, chooseAbove_sub hle, hanswer, fun hlimit => ?_⟩
    have hlarge := two_pow_le_choose hle hlimit
    rw [hanswer]
    exact ⟨rounded_of_le _ hlarge, hlarge, not_fits hlarge⟩
  · intro hx hy hxs hys h
    obtain ⟨cause, -, hrefused⟩ := choice_eq_error .combinations hx hy hxs hys h
    refine ⟨cause, ?_⟩
    rw [combinations, hrefused]
    rfl

/-- The largest operand, a refused count and operands out of order. -/
theorem combinations_count_exactly_at_limits :
    combinations 18446744073709549568 2 =
        rounded .combinations (Nat.choose 18446744073709549568 2) ∧
      combinations 3000 1500 = overflow .combinations ∧
      ∃ cause, combinations 5 1.5 = .error (.outOfDomain cause) := by
  have hlargest : StandsFor 18446744073709549568 18446744073709549568 :=
    ⟨by decide +kernel, by decide +kernel, by decide +kernel⟩
  have htwo : StandsFor 2 2 := ⟨by decide +kernel, by decide +kernel, by decide +kernel⟩
  have hmany : StandsFor 3000 3000 := ⟨by decide +kernel, by decide +kernel, by decide +kernel⟩
  have hhalf : StandsFor 1500 1500 := ⟨by decide +kernel, by decide +kernel, by decide +kernel⟩
  obtain ⟨-, -, -, -, -, hanswer, -⟩ :=
    (combinations_count_exactly _ _).1 _ _ (by decide) (by decide) hlargest htwo
  obtain ⟨-, -, -, -, -, -, hlimit⟩ :=
    (combinations_count_exactly _ _).1 _ _ (by decide) (by decide) hmany hhalf
  exact ⟨hanswer, (hlimit (by decide)).1,
    (combinations_count_exactly 5 1.5).2 (by decide +kernel) (by decide +kernel)
      (by decide +kernel) (by decide +kernel) (.inr (.inr (.inr (by decide +kernel))))⟩

/--
Permutations and factorials are counted exactly, and their limit refuses only counts that no number
can hold; a count that fits is answered. The first factor of the product of permutations stays
within a word of 64 bits. Operands that are out of order, negative or not whole are refused as
outside the domain.
-/
theorem permutations_and_factorials_count_exactly (x y : Float) :
    (∀ n r : Nat, r ≤ n → n < 2 ^ 64 → StandsFor x n → StandsFor y r →
      n - r + 1 < 2 ^ 64 ∧
      productAbove (n - r) r = n ! / (n - r)! ∧
      ∏ k ∈ Finset.Icc (max (n - r + 1) 2) n, k = n ! / (n - r)! ∧
      permutations x y = rounded .permutations (n ! / (n - r)!) ∧
      (mostFactors < r → permutations x y = overflow .permutations ∧
        171 ! ≤ n ! / (n - r)! ∧ 2 ^ 1024 < 171 ! ∧ ¬Fits (n ! / (n - r)!)) ∧
      (Fits (n ! / (n - r)!) → permutations x y = .ok (ofNat (n ! / (n - r)!)))) ∧
    (∀ n : Nat, n < 2 ^ 64 → StandsFor x n →
      productAbove 0 n = n ! ∧
      factorial x = rounded .factorial n ! ∧
      (mostFactors < n → factorial x = overflow .factorial ∧ 2 ^ 1024 < n ! ∧ ¬Fits n !) ∧
      (Fits n ! → factorial x = .ok (ofNat n !))) ∧
    (x.isFinite = true → y.isFinite = true →
      x < 18446744073709551616 → y < 18446744073709551616 →
      x < y ∨ NotNatural x ∨ NotNatural y →
      ∃ cause, permutations x y = .error (.outOfDomain cause)) ∧
    (NotNatural x → factorial x = .error (.outOfDomain (.notNatural .factorial x))) := by
  refine ⟨?permutations, ?factorials, ?order, ?notNatural⟩
  case permutations =>
    intro n r hle hn hx hy
    have hroom := hx.add_le hn
    have hcount := productAbove_sub hle
    have hrange := prod_Icc_eq_productAbove (n - r) r
    rw [Nat.sub_add_cancel hle, hcount] at hrange
    have hanswer := permutations_eq_rounded hx hy hle hn
    refine ⟨by omega, hcount, hrange, hanswer, fun hlimit => ?_, fun hfits => ?_⟩
    · have hfactorial := factorial_le_of_mostFactors hle hlimit
      have hlarge := Nat.le_trans (Nat.le_of_lt two_pow_lt_factorial) hfactorial
      rw [hanswer]
      exact ⟨rounded_of_le _ hlarge, hfactorial, two_pow_lt_factorial, not_fits hlarge⟩
    · rw [hanswer, rounded_of_fits _ hfits]
  case factorials =>
    intro n hn hx
    have hanswer := factorial_eq_rounded hx hn
    refine ⟨productAbove_zero n, hanswer, fun hlimit => ?_, fun hfits => ?_⟩
    · have hlarge : 2 ^ 1024 < n ! :=
        Nat.lt_of_lt_of_le two_pow_lt_factorial (Nat.factorial_le hlimit)
      rw [hanswer]
      exact ⟨rounded_of_le _ (Nat.le_of_lt hlarge), hlarge, not_fits (Nat.le_of_lt hlarge)⟩
    · rw [hanswer, rounded_of_fits _ hfits]
  case order =>
    intro hx hy hxs hys h
    obtain ⟨cause, -, hrefused⟩ := choice_eq_error .permutations hx hy hxs hys h
    refine ⟨cause, ?_⟩
    rw [permutations, hrefused]
    rfl
  case notNatural =>
    intro hx
    rw [factorial, natural_eq_error _ hx]
    rfl

/-- The largest factorial that fits, a refused count and operands out of order. -/
theorem permutations_and_factorials_count_exactly_at_limits :
    factorial 170 = .ok (ofNat 170 !) ∧
      permutations 170 170 = .ok (ofNat (170 ! / (170 - 170)!)) ∧
      permutations 1000 171 = overflow .permutations ∧
      (∃ cause, permutations 2 5 = .error (.outOfDomain cause)) ∧
      factorial 2.5 = .error (.outOfDomain (.notNatural .factorial 2.5)) := by
  have hlargest : StandsFor 170 170 := ⟨by decide +kernel, by decide +kernel, by decide +kernel⟩
  have hmany : StandsFor 1000 1000 := ⟨by decide +kernel, by decide +kernel, by decide +kernel⟩
  have hnext : StandsFor 171 171 := ⟨by decide +kernel, by decide +kernel, by decide +kernel⟩
  have hfactorial : Fits 170 ! := ⟨1.7976931348623157e308, by decide +kernel, by decide +kernel⟩
  have hquotient : Fits (170 ! / (170 - 170)!) := by
    rw [Nat.sub_self, Nat.factorial_zero, Nat.div_one]
    exact hfactorial
  obtain ⟨hpermutations, hfactorials, -, -⟩ := permutations_and_factorials_count_exactly 170 170
  obtain ⟨-, -, -, -, -, hfit⟩ :=
    hpermutations 170 170 (by decide) (by decide) hlargest hlargest
  obtain ⟨-, -, -, -, hlimit, -⟩ :=
    (permutations_and_factorials_count_exactly 1000 171).1 1000 171 (by decide) (by decide)
      hmany hnext
  exact ⟨(hfactorials 170 (by decide) hlargest).2.2.2 hfactorial, hfit hquotient,
    (hlimit (by decide)).1,
    (permutations_and_factorials_count_exactly 2 5).2.2.1 (by decide +kernel) (by decide +kernel)
      (by decide +kernel) (by decide +kernel) (.inl (by decide +kernel)),
    (permutations_and_factorials_count_exactly 2.5 0).2.2.2 (.inr (by decide +kernel))⟩

end

end SciCalc.Combinatorics
