import SciCalc.Proofs.Settling

/-!
# Rounding whichever way a tie goes

Two roundings are composed when a number is rounded to places: to the nearest decimal, and from that
to the nearest number. Nothing is said here about which of two equally near ones is taken. If the
number that comes out is rounded again, its nearest decimal is the one it came from, or it lies
halfway between that and the next one. In the first case only a number just as near could come out,
and two such numbers would have the decimal in their middle, which then has too many binary places.
In the second case the gap to the neighbour on one side is at least that of two decimals and the gap
on the other side at most that. The gaps around a number are equal, or the number is a power of two,
and neither leaves it halfway between two decimals of so few places.
-/

set_option autoImplicit false

namespace SciCalc

open Binary64

/-! ## Powers of two -/

/-- An odd multiple of a power of two is no multiple of a larger one. -/
theorem odd_mul_two_pow_ne {a b i j : Nat} (ha : Odd a) (hij : i < j) :
    a * 2 ^ i ≠ b * 2 ^ j := by
  intro h
  obtain ⟨k, rfl⟩ := Nat.exists_eq_add_of_lt hij
  have hfactor : a * 2 ^ i = 2 * (b * 2 ^ k) * 2 ^ i := by
    rw [h, Nat.add_assoc, Nat.pow_add, Nat.pow_succ]
    ring
  have heven : a = 2 * (b * 2 ^ k) := Nat.eq_of_mul_eq_mul_right (Nat.two_pow_pos i) hfactor
  rw [Nat.odd_iff, heven] at ha
  omega

/-- A step of a power of two, counted in decimals of so many places. -/
theorem two_pow_mul_ten_pow (shift places : Nat) :
    2 ^ shift * 10 ^ places = 5 ^ places * 2 ^ (shift + places) := by
  have hten : (10 : Nat) = 2 * 5 := rfl
  rw [hten, Nat.mul_pow, Nat.pow_add]
  ring

/-- A power of five is odd. -/
theorem odd_five_pow (places : Nat) : Odd (5 ^ places) := Odd.pow (by decide)

/-- The middle of two numbers that are no farther apart than two decimals is no decimal. -/
theorem odd_mul_gap_ne {a b shift places : Nat} (ha : Odd a)
    (hgap : 2 ^ shift * 10 ^ places ≤ unitsPerOne) :
    a * (2 ^ shift * 10 ^ places) ≠ b * (2 * unitsPerOne) := by
  unfold unitsPerOne at hgap ⊢
  -- Nothing about the least unit matters but that it is a power of two.
  generalize (1074 : Nat) = least at hgap ⊢
  simp only [Nat.pow_eq] at hgap ⊢
  rw [two_pow_mul_ten_pow] at hgap ⊢
  have hexponent : shift + places ≤ least := by
    have hfactor : 2 ^ (shift + places) ≤ 5 ^ places * 2 ^ (shift + places) :=
      Nat.le_mul_of_pos_left _ (Nat.pow_pos (by decide))
    exact (Nat.pow_le_pow_iff_right (by decide)).1 (Nat.le_trans hfactor hgap)
  rw [← Nat.mul_assoc, ← Nat.pow_succ']
  exact odd_mul_two_pow_ne (ha.mul (odd_five_pow places)) (by omega)

/-- The gap above a power of two that lies halfway between two decimals is less than theirs. -/
theorem gap_lt_of_halfway {a shift places : Nat} (hplaces : 5 ^ places < 2 ^ 53)
    (h : 2 * (2 ^ 52 * (2 ^ shift * 10 ^ places)) = (2 * a + 1) * unitsPerOne) :
    2 ^ shift * 10 ^ places < unitsPerOne := by
  unfold unitsPerOne at h ⊢
  generalize (1074 : Nat) = least at h ⊢
  simp only [Nat.pow_eq] at h ⊢
  rw [two_pow_mul_ten_pow] at h ⊢
  have hexponent : 53 + (shift + places) ≤ least := by
    by_contra hlarge
    refine odd_mul_two_pow_ne ⟨a, rfl⟩ (Nat.not_le.1 hlarge) (b := 5 ^ places) ?_
    rw [← h, Nat.pow_add]
    ring
  calc 5 ^ places * 2 ^ (shift + places)
      < 2 ^ 53 * 2 ^ (shift + places) := Nat.mul_lt_mul_of_pos_right hplaces (Nat.two_pow_pos _)
    _ = 2 ^ (53 + (shift + places)) := (Nat.pow_add 2 53 _).symm
    _ ≤ 2 ^ least := Nat.pow_le_pow_right (by decide) hexponent

/-! ## Neighbours -/

namespace Binary64

/-- A magnitude and the next one are multiples in succession of a power of two. -/
theorem exists_gap (bits : Nat) : ∃ steps shift, bits = shift * Nat.pow 2 52 + steps ∧
    steps < 2 ^ 53 ∧ (shift = 0 ∨ 2 ^ 52 ≤ steps) ∧
    unitsOfField bits = steps * 2 ^ shift ∧ unitsOfField (bits + 1) = (steps + 1) * 2 ^ shift := by
  obtain ⟨steps, shift, hbits, hhigh, hlow⟩ : ∃ steps shift,
      bits = shift * Nat.pow 2 52 + steps ∧ steps < 2 ^ 53 ∧ (shift = 0 ∨ 2 ^ 52 ≤ steps) := by
    obtain ⟨exponent, rest, hrest, rfl⟩ := exists_parts bits
    simp only [Nat.pow_eq]
    rcases Nat.eq_zero_or_pos exponent with hzero | hpos
    · exact ⟨rest, 0, by omega, by omega, by omega⟩
    · exact ⟨2 ^ 52 + rest, exponent - 1, by omega, by omega, by omega⟩
  refine ⟨steps, shift, hbits, hhigh, hlow, ?_, ?_⟩
  · rw [hbits, unitsOfField_steps (Nat.le_of_lt hhigh) hlow]
  · rw [hbits, Nat.add_assoc, unitsOfField_steps hhigh (by omega)]

/-- The gaps around a magnitude are equal, or it is a power of two and the upper gap is double. -/
theorem exists_gaps (bits : Nat) : ∃ steps shift steps' shift',
    unitsOfField bits = steps * 2 ^ shift ∧ unitsOfField (bits + 1) = (steps + 1) * 2 ^ shift ∧
    unitsOfField (bits + 1) = steps' * 2 ^ shift' ∧
    unitsOfField (bits + 2) = (steps' + 1) * 2 ^ shift' ∧
    (shift' = shift ∨ shift' = shift + 1 ∧ steps' = 2 ^ 52) := by
  obtain ⟨steps, shift, hbits, hhigh, hlow, hunits, hnext⟩ := exists_gap bits
  obtain ⟨steps', shift', hbits', hhigh', hlow', hunits', hnext'⟩ := exists_gap (bits + 1)
  refine ⟨steps, shift, steps', shift', hunits, hnext, hunits', hnext', ?_⟩
  simp only [Nat.pow_eq] at hbits hbits'
  omega

/-- Magnitudes are in order also when they are counted in decimals. -/
theorem scaled_strictMono (places : Nat) :
    StrictMono fun bits => unitsOfField bits * 10 ^ places := fun _ _ h =>
  Nat.mul_lt_mul_of_pos_right (unitsOfField_strictMono h) (Nat.pow_pos (by decide))

/--
A magnitude halfway between two decimals does not have, on one side, a gap of at least theirs and,
on the other side, one of at most theirs.
-/
theorem not_gaps_of_halfway {bits a places : Nat} (hplaces : 5 ^ places < 2 ^ 53)
    (h : 2 * (unitsOfField (bits + 1) * 10 ^ places) = (2 * a + 1) * unitsPerOne) :
    ¬(unitsOfField bits * 10 ^ places + unitsPerOne ≤ unitsOfField (bits + 1) * 10 ^ places ∧
        unitsOfField (bits + 2) * 10 ^ places ≤
          unitsOfField (bits + 1) * 10 ^ places + unitsPerOne) ∧
      ¬(unitsOfField (bits + 1) * 10 ^ places + unitsPerOne ≤
          unitsOfField (bits + 2) * 10 ^ places ∧
        unitsOfField (bits + 1) * 10 ^ places ≤
          unitsOfField bits * 10 ^ places + unitsPerOne) := by
  obtain ⟨steps, shift, steps', shift', hbelow, hhere, hhere', habove, hgaps⟩ := exists_gaps bits
  have hlower : unitsOfField (bits + 1) * 10 ^ places =
      unitsOfField bits * 10 ^ places + 2 ^ shift * 10 ^ places := by
    rw [hhere, hbelow, Nat.succ_mul, Nat.add_mul]
  have hupper : unitsOfField (bits + 2) * 10 ^ places =
      unitsOfField (bits + 1) * 10 ^ places + 2 ^ shift' * 10 ^ places := by
    rw [habove, hhere', Nat.succ_mul, Nat.add_mul]
  rcases hgaps with rfl | ⟨rfl, rfl⟩
  · -- Equal gaps are those of the decimals, so twice the magnitude is an even multiple of them.
    have hne : 2 ^ shift' * 10 ^ places ≠ unitsPerOne := by
      intro hgap
      rw [hhere, Nat.mul_assoc, hgap, ← Nat.mul_assoc] at h
      have hparity := Nat.eq_of_mul_eq_mul_right Decimal.unitsPerOne_pos h
      omega
    constructor <;> rintro ⟨hone, hother⟩ <;> omega
  · -- Above a power of two the gap is too small, and below it is smaller still.
    rw [hhere', Nat.mul_assoc] at h
    have hsmall := gap_lt_of_halfway hplaces h
    have hdouble : 2 ^ (shift + 1) * 10 ^ places = 2 * (2 ^ shift * 10 ^ places) := by
      rw [Nat.pow_succ', Nat.mul_assoc]
    constructor <;> rintro ⟨hone, hother⟩ <;> omega

end Binary64

/-! ## Nearest decimals and nearest numbers -/

variable {places m : Nat} {x y z : Float}

/-- No decimal of so many places is nearer to the magnitude of the number than `m` last places. -/
def IsNearestDecimal (places m : Nat) (x : Float) : Prop :=
  ∀ k : Nat, Nat.dist (m * unitsPerOne) (units x * 10 ^ places) ≤
    Nat.dist (k * unitsPerOne) (units x * 10 ^ places)

/-- No finite number is nearer in magnitude to the decimal of `m` last places. -/
def IsNearestNumber (places m : Nat) (x : Float) : Prop :=
  ∀ z : Float, z.isFinite = true → Nat.dist (units x * 10 ^ places) (m * unitsPerOne) ≤
    Nat.dist (units z * 10 ^ places) (m * unitsPerOne)

/-- The second number is nearest to a decimal of so many places that is nearest to the first. -/
structure RoundsTo (places : Nat) (x y : Float) : Prop where
  isFinite : y.isFinite = true
  isNegative_eq : isNegative y = isNegative x
  nearest : ∃ m, IsNearestDecimal places m x ∧ IsNearestNumber places m y

/-- A nearest decimal is at most half a last place away. -/
theorem IsNearestDecimal.two_dist_le (h : IsNearestDecimal places m x) :
    2 * Nat.dist (m * unitsPerOne) (units x * 10 ^ places) ≤ unitsPerOne := by
  obtain ⟨hlow, hhigh, -⟩ := roundHalfEven_spec Decimal.unitsPerOne_pos (units x * 10 ^ places)
  have hnear := h (roundHalfEven (units x * 10 ^ places) unitsPerOne)
  simp only [Nat.dist] at hnear ⊢
  omega

namespace IsNearestNumber

/-- No finite magnitude is nearer than that of a nearest number. -/
theorem dist_le (h : IsNearestNumber places m x) {bits : Nat} (hbits : bits < infinityField) :
    Nat.dist (units x * 10 ^ places) (m * unitsPerOne) ≤
      Nat.dist (unitsOfField bits * 10 ^ places) (m * unitsPerOne) := by
  obtain ⟨hfinite, hfield, -⟩ := unpack_ofField hbits false
  have hnear := h (ofField false bits) hfinite
  rw [← hfield]
  exact hnear

/-- Of two numbers nearest to a decimal that is no farther than half a place, none is greater. -/
theorem not_field_lt (hx : IsNearestNumber places m x) (hy : IsNearestNumber places m y)
    (hfx : x.isFinite = true) (hfy : y.isFinite = true)
    (hclose : 2 * Nat.dist (units x * 10 ^ places) (m * unitsPerOne) ≤ unitsPerOne) :
    ¬field x < field y := by
  intro hlt
  have hsame := Nat.le_antisymm (hx y hfy) (hy x hfx)
  have hapart : units x * 10 ^ places < units y * 10 ^ places := scaled_strictMono places hlt
  -- A number in between would be nearer, so the two are neighbours.
  have hnext : field y = field x + 1 := by
    by_contra hne
    have hmiddle : field x + 1 < field y := by omega
    have hnear := hx.dist_le (Nat.lt_trans hmiddle ((isFinite_iff y).1 hfy))
    have habove : units x * 10 ^ places < unitsOfField (field x + 1) * 10 ^ places :=
      scaled_strictMono places (Nat.lt_succ_self _)
    have hbelow : unitsOfField (field x + 1) * 10 ^ places < units y * 10 ^ places :=
      scaled_strictMono places hmiddle
    simp only [Nat.dist] at hsame hnear
    omega
  obtain ⟨steps, shift, -, -, -, hbelow, habove⟩ := exists_gap (field x)
  have hlower : units x * 10 ^ places = steps * (2 ^ shift * 10 ^ places) := by
    rw [units, hbelow, Nat.mul_assoc]
  have hupper : units y * 10 ^ places = (steps + 1) * (2 ^ shift * 10 ^ places) := by
    rw [units, hnext, habove, Nat.mul_assoc]
  rw [hlower, hupper, Nat.succ_mul] at hsame
  rw [hlower] at hclose
  rw [hlower, hupper, Nat.succ_mul] at hapart
  have hgap : 2 ^ shift * 10 ^ places ≤ unitsPerOne := by
    simp only [Nat.dist] at hsame hclose
    omega
  refine odd_mul_gap_ne ⟨steps, rfl⟩ hgap (b := m) ?_
  rw [Nat.add_mul, Nat.one_mul, Nat.mul_assoc, Nat.mul_left_comm m]
  simp only [Nat.dist] at hsame
  omega

/-- Two numbers nearest to a decimal no farther than half a last place are equal in magnitude. -/
theorem field_eq (hx : IsNearestNumber places m x) (hy : IsNearestNumber places m y)
    (hfx : x.isFinite = true) (hfy : y.isFinite = true)
    (hclose : 2 * Nat.dist (units x * 10 ^ places) (m * unitsPerOne) ≤ unitsPerOne) :
    field x = field y := by
  have hclose' : 2 * Nat.dist (units y * 10 ^ places) (m * unitsPerOne) ≤ unitsPerOne :=
    Nat.le_trans (Nat.mul_le_mul_left 2 (hy x hfx)) hclose
  exact Nat.le_antisymm (Nat.not_lt.1 (hy.not_field_lt hx hfy hfx hclose'))
    (Nat.not_lt.1 (hx.not_field_lt hy hfx hfy hclose))

section

variable (hplaces : 5 ^ places < 2 ^ 53) (hfy : y.isFinite = true)
  (hhalf : 2 * (units y * 10 ^ places) = (2 * m + 1) * unitsPerOne)

include hfy hhalf

/-- A number halfway between two decimals is neither zero nor the largest one. -/
theorem exists_field_of_halfway : ∃ bits, field y = bits + 1 ∧ bits + 2 < infinityField := by
  have hunit := Decimal.unitsPerOne_pos
  have hfinite := (isFinite_iff y).1 hfy
  obtain ⟨bits, hbits⟩ : ∃ bits, field y = bits + 1 := by
    refine Nat.exists_eq_succ_of_ne_zero fun hzero => ?_
    have hnone : units y = 0 := by
      rw [units, hzero]
      rfl
    rw [hnone, Nat.zero_mul, Nat.add_mul, Nat.one_mul] at hhalf
    omega
  refine ⟨bits, hbits, ?_⟩
  by_contra hlast
  -- The largest number is whole, so twice that is an even multiple of a last place.
  have hlargest : field y = infinityField - 1 := by omega
  obtain ⟨n, hn⟩ : ∃ n, unitsOfField (infinityField - 1) = n * unitsPerOne :=
    ⟨_, unitsOfField_largest⟩
  rw [units, hlargest, hn, Nat.mul_right_comm, ← Nat.mul_assoc] at hhalf
  have hparity := Nat.eq_of_mul_eq_mul_right hunit hhalf
  omega

include hplaces

/-- A number halfway between two decimals lies between its neighbours, with gaps that differ so. -/
theorem exists_neighbours_of_halfway : ∃ bits, field y = bits + 1 ∧ bits + 2 < infinityField ∧
    unitsOfField bits * 10 ^ places < units y * 10 ^ places ∧
    units y * 10 ^ places < unitsOfField (bits + 2) * 10 ^ places ∧
    ¬(unitsOfField bits * 10 ^ places + unitsPerOne ≤ units y * 10 ^ places ∧
      unitsOfField (bits + 2) * 10 ^ places ≤ units y * 10 ^ places + unitsPerOne) ∧
    ¬(units y * 10 ^ places + unitsPerOne ≤ unitsOfField (bits + 2) * 10 ^ places ∧
      units y * 10 ^ places ≤ unitsOfField bits * 10 ^ places + unitsPerOne) := by
  obtain ⟨bits, hbits, hlast⟩ := exists_field_of_halfway hfy hhalf
  have hunits : units y = unitsOfField (bits + 1) := by rw [units, hbits]
  rw [hunits] at hhalf ⊢
  exact ⟨bits, hbits, hlast, scaled_strictMono places (Nat.lt_succ_self bits),
    scaled_strictMono places (Nat.lt_succ_self (bits + 1)), not_gaps_of_halfway hplaces hhalf⟩

/-- A number halfway between two decimals, and nearest to the lower, is what the upper rounds to. -/
theorem field_eq_of_halfway_above (hy : IsNearestNumber places m y)
    (hz : IsNearestNumber places (m + 1) z) : field z = field y := by
  obtain ⟨bits, hbits, hlast, hdown, -, hgaps, -⟩ :=
    exists_neighbours_of_halfway hplaces hfy hhalf
  have hfinite : bits < infinityField := by omega
  have hbelow := hy.dist_le hfinite
  have hnear := hz y hfy
  rw [Nat.succ_mul] at hnear
  rw [Nat.add_mul, Nat.one_mul, Nat.mul_assoc] at hhalf
  simp only [Nat.dist] at hbelow hnear
  rcases Nat.lt_trichotomy (field z) (field y) with hlt | heq | hgt
  · have hapart : units z * 10 ^ places < units y * 10 ^ places := scaled_strictMono places hlt
    omega
  · exact heq
  · -- The next number is as near, so the upper gap is at most that of the decimals.
    have hnext : unitsOfField (bits + 2) * 10 ^ places ≤ units z * 10 ^ places :=
      (scaled_strictMono places).monotone (by omega)
    omega

/-- A number halfway between two decimals, and nearest to the upper, is what the lower rounds to. -/
theorem field_eq_of_halfway_below (hy : IsNearestNumber places (m + 1) y)
    (hz : IsNearestNumber places m z) : field z = field y := by
  obtain ⟨bits, hbits, hlast, -, hup, -, hgaps⟩ :=
    exists_neighbours_of_halfway hplaces hfy hhalf
  have habove := hy.dist_le hlast
  have hnear := hz y hfy
  rw [Nat.succ_mul] at habove
  rw [Nat.add_mul, Nat.one_mul, Nat.mul_assoc] at hhalf
  simp only [Nat.dist] at habove hnear
  rcases Nat.lt_trichotomy (field z) (field y) with hlt | heq | hgt
  · -- The number before is as near, so the lower gap is at most that of the decimals.
    have hprevious : units z * 10 ^ places ≤ unitsOfField bits * 10 ^ places :=
      (scaled_strictMono places).monotone (by omega)
    omega
  · exact heq
  · have hapart : units y * 10 ^ places < units z * 10 ^ places := scaled_strictMono places hgt
    omega

end

end IsNearestNumber

/-! ## Rounding again -/

/-- What is at most half a last place from two decimals lies halfway between them. -/
theorem halfway_of_lt {a b n : Nat} (hlt : a < b)
    (ha : 2 * Nat.dist (a * unitsPerOne) n ≤ unitsPerOne)
    (hb : 2 * Nat.dist (b * unitsPerOne) n ≤ unitsPerOne) :
    b = a + 1 ∧ 2 * n = (2 * a + 1) * unitsPerOne := by
  have hfar : (a + 1) * unitsPerOne ≤ b * unitsPerOne := Nat.mul_le_mul_right _ hlt
  have hsplit : (a + 1) * unitsPerOne = a * unitsPerOne + unitsPerOne := Nat.succ_mul _ _
  simp only [Nat.dist] at ha hb
  have hnext : b * unitsPerOne = (a + 1) * unitsPerOne := by omega
  refine ⟨Nat.eq_of_mul_eq_mul_right Decimal.unitsPerOne_pos hnext, ?_⟩
  rw [Nat.add_mul, Nat.one_mul, Nat.mul_assoc]
  omega

/-- A number that was rounded stays where it is when it is rounded again. -/
theorem RoundsTo.eq_of_roundsTo (hplaces : 5 ^ places < 2 ^ 53) (hx : x.isFinite = true)
    (hxy : RoundsTo places x y) (hyz : RoundsTo places y z) : z = y := by
  obtain ⟨m, hm, hmy⟩ := hxy.nearest
  obtain ⟨m', hm', hmz⟩ := hyz.nearest
  have hfy := hxy.isFinite
  -- The number that came out is no farther from its decimal than the one that went in.
  have hclose : 2 * Nat.dist (units y * 10 ^ places) (m * unitsPerOne) ≤ unitsPerOne := by
    have hnear := hmy x hx
    rw [Nat.dist_comm (units x * 10 ^ places)] at hnear
    exact Nat.le_trans (Nat.mul_le_mul_left 2 hnear) hm.two_dist_le
  have hdecimal : 2 * Nat.dist (m * unitsPerOne) (units y * 10 ^ places) ≤ unitsPerOne := by
    rw [Nat.dist_comm]
    exact hclose
  have hfield : field z = field y := by
    rcases Nat.lt_trichotomy m m' with hlt | rfl | hgt
    · obtain ⟨rfl, hhalf⟩ := halfway_of_lt hlt hdecimal hm'.two_dist_le
      exact hmy.field_eq_of_halfway_above hplaces hfy hhalf hmz
    · exact (hmy.field_eq hmz hfy hyz.isFinite hclose).symm
    · obtain ⟨rfl, hhalf⟩ := halfway_of_lt hgt hm'.two_dist_le hdecimal
      exact hmy.field_eq_of_halfway_below hplaces hfy hhalf hmz
  rw [← ofField_field z, ← ofField_field y, hfield, hyz.isNegative_eq]

/-- A whole number is rounded to itself. -/
theorem RoundsTo.eq_of_whole {n : Nat} (hx : x.isFinite = true) (hn : units x = n * unitsPerOne)
    (hxy : RoundsTo places x y) : y = x := by
  obtain ⟨m, hm, hmy⟩ := hxy.nearest
  have hexact : n * 10 ^ places * unitsPerOne = units x * 10 ^ places := by
    rw [hn, Nat.mul_right_comm]
  have hdecimal := hm (n * 10 ^ places)
  have hnumber := hmy x hx
  rw [hexact, Nat.dist_self] at hdecimal
  rw [Nat.eq_of_dist_eq_zero (Nat.le_zero.1 hdecimal), Nat.dist_self] at hnumber
  have hfield : field y = field x :=
    (scaled_strictMono places).injective (Nat.eq_of_dist_eq_zero (Nat.le_zero.1 hnumber))
  rw [← ofField_field y, ← ofField_field x, hfield, hxy.isNegative_eq]

/-- Rounding to places goes to a number nearest to a nearest decimal. -/
theorem roundsTo_roundPlaces (hplaces : places ≤ Number.mostPlaces) (hx : x.isFinite = true) :
    RoundsTo places x (Number.roundPlaces x places) := by
  obtain ⟨hfinite, hsign, hfield⟩ := Number.roundPlaces_parts hx places
  rw [Nat.min_eq_left hplaces] at hfield
  have hpow : 0 < Nat.pow 10 places := Nat.pow_pos (by decide)
  refine ⟨hfinite, hsign, Number.multipleOfPlaces x places, ?_, ?_⟩
  · exact dist_roundHalfEven_le Decimal.unitsPerOne_pos _
  · intro w _
    have hnear := dist_nearestField_le hpow (Number.nearestField_multipleOfPlaces hx places)
      (field w)
    rw [← hfield] at hnear
    exact hnear

namespace Rounding

/-- Rounding to at most 15 places is steady, whichever way ties go. -/
theorem steady_of_roundsTo (hplaces : places ≤ 15) {round : Float → Float}
    (hround : ∀ x : Float, x.isFinite = true → RoundsTo places x (round x)) : Steady round where
  isFinite x hx := (hround x hx).isFinite
  round_round x hx := by
    have hpower : 5 ^ places < 2 ^ 53 :=
      Nat.lt_of_le_of_lt (Nat.pow_le_pow_right (by decide) hplaces) (by decide)
    exact (hround x hx).eq_of_roundsTo hpower hx (hround _ (hround x hx).isFinite)
  round_whole x n hx hn := (hround x hx).eq_of_whole hx hn

/--
Settling is idempotent, and so is rounding to places. Nothing depends on which way ties go: the same
holds with any other rounding that takes a number nearest to a nearest decimal.
-/
theorem settling_is_idempotent {r : Rounding} (hpos : 0 < r.zeroThreshold)
    (hone : r.zeroThreshold ≤ 1) (hplaces : r.places ≤ 15) :
    (∀ x : Float, x.isFinite = true → r.settle (r.settle x) = r.settle x) ∧
    (∀ (places : Nat) (x : Float), x.isFinite = true →
      Number.roundPlaces (Number.roundPlaces x places) places = Number.roundPlaces x places) ∧
    (∀ x : Float, x.isFinite = true → RoundsTo r.places x (Number.roundPlaces x r.places)) ∧
    ∀ round : Float → Float,
      (∀ x : Float, x.isFinite = true → RoundsTo r.places x (round x)) →
      ∀ x : Float, x.isFinite = true →
        round (round x) = round x ∧ r.snap (round (r.snap (round x))) = r.snap (round x) := by
  have hr : r.UpToOne := ⟨isFinite_of_lt_of_le (by decide +kernel) (by decide +kernel) hpos hone,
    hpos, hone⟩
  have hmost : r.places ≤ Number.mostPlaces := Nat.le_trans hplaces (by decide)
  refine ⟨fun x hx => settle_settle hr hx, fun places x hx => ?_,
    fun x hx => roundsTo_roundPlaces hmost hx, fun round hround x hx => ?_⟩
  · exact Number.roundPlaces_roundPlaces hx places
  · have hsteady := steady_of_roundsTo hplaces hround
    exact ⟨hsteady.round_round x hx, hsteady.snap_round_snap hr hx⟩

/-- Fifteen places, the largest threshold and a number with more digits than that. -/
theorem settling_is_idempotent_fifteen_places :
    let r : Rounding := { places := 15, zeroThreshold := 1 }
    r.settle (r.settle 142857.14285714287) = r.settle 142857.14285714287 ∧
      ∃ round : Float → Float,
        (∀ x : Float, x.isFinite = true → RoundsTo 15 x (round x)) ∧
        r.snap (round (r.snap (round 142857.14285714287))) =
          r.snap (round 142857.14285714287) := by
  intro r
  have hfinite : (142857.14285714287 : Float).isFinite = true := by decide +kernel
  obtain ⟨hsettle, -, hnearest, hany⟩ :=
    settling_is_idempotent (r := r) (by decide +kernel) (by decide +kernel) (by decide)
  exact ⟨hsettle _ hfinite, _, hnearest, (hany _ hnearest _ hfinite).2⟩

end Rounding

end SciCalc
