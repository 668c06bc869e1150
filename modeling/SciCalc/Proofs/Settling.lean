import SciCalc.Proofs.Comparing
import SciCalc.Proofs.Evaluating
import SciCalc.Proofs.Nearest
import SciCalc.Rounding

/-!
# Settled values

Every value that an evaluation comes to is finite, if the last result is, and settling keeps it so.
A value that is rounded to decimal places is finite and stays where it is when it is rounded again:
the number itself is no farther from the multiple it is rounded to than the number it was rounded
from. With a threshold above zero and up to one, a settled value is zero, plus or minus one, or a
rounded value that is neither noise nor next to one. Of the rounding it matters only that it moves
neither what it has rounded before nor a whole number: then all of these stay where they are when
they are settled again.
-/

set_option autoImplicit false

namespace SciCalc

open Binary64

namespace Number

/-! ## Rounding to places -/

variable {x : Float} (hx : x.isFinite = true)

include hx

/-- The multiple that a finite number is rounded to is not too large for a number. -/
theorem nearestField_multipleOfPlaces (places : Nat) :
    nearestField (multipleOfPlaces x places) (Nat.pow 10 places) < infinityField := by
  obtain ⟨n, hlargest⟩ : ∃ n, unitsOfField (infinityField - 1) = n * unitsPerOne :=
    ⟨_, unitsOfField_largest⟩
  have hpow : 0 < Nat.pow 10 places := Nat.pow_pos (by decide)
  have hx : units x ≤ n * unitsPerOne := by
    rw [← hlargest]
    refine unitsOfField_strictMono.monotone ?_
    have := (isFinite_iff x).1 hx
    omega
  have hmultiple : multipleOfPlaces x places ≤ n * Nat.pow 10 places := by
    refine roundHalfEven_le Decimal.unitsPerOne_pos ?_
    rw [Nat.mul_right_comm]
    exact Nat.mul_le_mul_right _ hx
  have hle : nearestField (multipleOfPlaces x places) (Nat.pow 10 places) ≤ infinityField - 1 := by
    refine nearestField_le hpow ?_
    rw [hlargest, Nat.mul_right_comm]
    exact Nat.mul_le_mul_right _ hmultiple
  have : 0 < infinityField := by decide
  omega

/-- The sign and the field of a rounded number. -/
theorem roundPlaces_eq (places : Nat) : roundPlaces x places =
    ofField (isNegative x) (nearestField (multipleOfPlaces x (min places mostPlaces))
      (Nat.pow 10 (min places mostPlaces))) := by
  rw [roundPlaces, if_pos hx, nearest]

/-- A rounded number is finite and has the sign of the number. -/
theorem roundPlaces_parts (places : Nat) :
    (roundPlaces x places).isFinite = true ∧
      isNegative (roundPlaces x places) = isNegative x ∧
      field (roundPlaces x places) = nearestField (multipleOfPlaces x (min places mostPlaces))
        (Nat.pow 10 (min places mostPlaces)) := by
  have hfield := nearestField_multipleOfPlaces hx (min places mostPlaces)
  rw [roundPlaces_eq hx, isFinite_iff, field_ofField (Nat.le_of_lt hfield),
    isNegative_ofField (Nat.le_of_lt hfield)]
  exact ⟨hfield, rfl, rfl⟩

/-- A number with the field nearest to a multiple is rounded to the same multiple. -/
theorem multipleOfPlaces_of_field {y : Float} {places : Nat}
    (hy : field y = nearestField (multipleOfPlaces x places) (Nat.pow 10 places)) :
    multipleOfPlaces y places = multipleOfPlaces x places := by
  have hpow : 0 < Nat.pow 10 places := Nat.pow_pos (by decide)
  have hnearest := dist_nearestField_le hpow (nearestField_multipleOfPlaces hx places) (field x)
  rw [← hy] at hnearest
  exact roundHalfEven_eq_of_dist_le Decimal.unitsPerOne_pos hnearest

/-- A rounded number stays where it is when it is rounded again. -/
theorem roundPlaces_roundPlaces (places : Nat) :
    roundPlaces (roundPlaces x places) places = roundPlaces x places := by
  obtain ⟨hfinite, hsign, hfield⟩ := roundPlaces_parts hx places
  rw [roundPlaces_eq hfinite, multipleOfPlaces_of_field hx hfield, hsign, roundPlaces_eq hx]

/-- A whole number stays where it is when it is rounded. -/
theorem roundPlaces_of_whole {n : Nat} (hn : units x = n * unitsPerOne) (places : Nat) :
    roundPlaces x places = x := by
  have hpow (k : Nat) : 0 < Nat.pow 10 k := Nat.pow_pos (by decide)
  have hmultiple (k : Nat) : multipleOfPlaces x k = n * Nat.pow 10 k := by
    rw [multipleOfPlaces, hn, Nat.mul_right_comm,
      roundHalfEven_mul_self _ _ Decimal.unitsPerOne_pos]
  have hfield (k : Nat) : nearestField (n * Nat.pow 10 k) (Nat.pow 10 k) = field x := by
    have hone := nearestField_mul_right n 1 _ (hpow k)
    have hunits := nearestField_mul_right n 1 _ Decimal.unitsPerOne_pos
    rw [Nat.one_mul] at hone hunits
    rw [hone, ← hunits, ← hn]
    exact Decimal.nearestField_unitsOfField ((isFinite_iff x).1 hx)
  rw [roundPlaces_eq hx, hmultiple, hfield, ofField_field]

end Number

namespace Rounding

open Number (roundPlaces)

/-! ## Thresholds -/

/-- The threshold is a number above zero and at most one. -/
structure UpToOne (r : Rounding) : Prop where
  isFinite : r.zeroThreshold.isFinite = true
  pos : 0 < r.zeroThreshold
  le_one : r.zeroThreshold ≤ 1

variable {r : Rounding}

/-- What is at least one in magnitude is not below the threshold. -/
theorem UpToOne.not_lt (hr : r.UpToOne) {v : Float} (hv : v.isFinite = true) (hone : 1 ≤ v) :
    ¬v < r.zeroThreshold := by
  have hunit : (1 : Float).isFinite = true := by decide +kernel
  rw [le_iff_place hunit hv] at hone
  have hle := (le_iff_place hr.isFinite hunit).1 hr.le_one
  rw [lt_iff_place hv hr.isFinite]
  omega

/-- What equals zero is below the threshold. -/
theorem abs_lt_of_beq_zero (hpos : 0 < r.zeroThreshold) {v : Float} (hv : v.isFinite = true)
    (hzero : (v == 0) = true) : v.abs < r.zeroThreshold := by
  have hplace : place (0 : Float) = 0 := by decide +kernel
  have hzero : field v = 0 := by
    rw [← place_eq_zero_iff, (beq_iff_place hv (by decide +kernel)).1 hzero, hplace]
  have habs : v.abs = 0 := by
    rw [abs_eq_ofField hv, hzero]
    decide +kernel
  rw [habs]
  exact hpos

/-! ## Snapping -/

/-- What settling does to a rounded value. -/
def snap (r : Rounding) (v : Float) : Float := clearSignOfZero (r.snapUnit (r.dropNoise v))

/-- The value is neither noise nor next to one. -/
structure Rests (r : Rounding) (v : Float) : Prop where
  not_noise : ¬v.abs < r.zeroThreshold
  not_next : ¬(r.snapsToUnit ∧ (v.abs - 1).abs < r.zeroThreshold)

/-- A value that rests stays where it is. -/
theorem Rests.snap_eq (hpos : 0 < r.zeroThreshold) {v : Float} (hv : v.isFinite = true)
    (h : r.Rests v) : r.snap v = v := by
  have hzero : ¬(v == 0) = true := fun hzero => h.not_noise (abs_lt_of_beq_zero hpos hv hzero)
  rw [snap, dropNoise, if_neg h.not_noise, snapUnit, if_neg h.not_next, clearSignOfZero,
    if_neg hzero]

/-- Zero stays where it is. -/
theorem snap_zero (hr : r.UpToOne) : r.snap 0 = 0 := by
  have hnoise : (0 : Float).abs < r.zeroThreshold :=
    abs_lt_of_beq_zero hr.pos (by decide +kernel) (by decide +kernel)
  have hnext : ¬(r.snapsToUnit ∧ ((0 : Float).abs - 1).abs < r.zeroThreshold) :=
    fun h => hr.not_lt (by decide +kernel) (by decide +kernel) h.2
  rw [snap, dropNoise, if_pos hnoise, snapUnit, if_neg hnext]
  decide +kernel

/-- Plus and minus one stay where they are. -/
theorem snap_unit (hr : r.UpToOne) {v : Float} (hv : v = 1 ∨ v = -1) : r.snap v = v := by
  have habs : v.abs = 1 := by rcases hv with rfl | rfl <;> decide +kernel
  have hnoise : ¬v.abs < r.zeroThreshold := by
    rw [habs]
    exact hr.not_lt (by decide +kernel) (by decide +kernel)
  have hsnap : (if isNegative v then -1 else 1) = v := by
    rcases hv with rfl | rfl <;> decide +kernel
  have hclear : clearSignOfZero v = v := by rcases hv with rfl | rfl <;> decide +kernel
  rw [snap, dropNoise, if_neg hnoise, snapUnit, hsnap, ite_self, hclear]

/-- A value goes to zero or to plus or minus one, or it rests. -/
theorem snap_cases (hpos : 0 < r.zeroThreshold) {v : Float} (hv : v.isFinite = true) :
    r.snap v = 0 ∨ (r.snap v = 1 ∨ r.snap v = -1) ∨ r.snap v = v ∧ r.Rests v := by
  have hclear : clearSignOfZero 0 = 0 ∧ clearSignOfZero 1 = 1 ∧ clearSignOfZero (-1) = -1 := by
    decide +kernel
  have hnoSign : isNegative 0 = false := by decide +kernel
  rw [snap]
  by_cases hnoise : v.abs < r.zeroThreshold
  · rw [dropNoise, if_pos hnoise, snapUnit, hnoSign]
    split
    · exact .inr (.inl (.inl hclear.2.1))
    · exact .inl hclear.1
  · rw [dropNoise, if_neg hnoise, snapUnit]
    split
    case isTrue hnext =>
      right
      left
      split
      · exact .inr hclear.2.2
      · exact .inl hclear.2.1
    case isFalse hnext =>
      have hzero : ¬(v == 0) = true := fun hzero => hnoise (abs_lt_of_beq_zero hpos hv hzero)
      rw [clearSignOfZero, if_neg hzero]
      exact .inr (.inr ⟨rfl, hnoise, hnext⟩)

/-! ## Settling -/

/-- A way of rounding that moves neither what it has rounded before nor a whole number. -/
structure Steady (round : Float → Float) : Prop where
  isFinite : ∀ x, x.isFinite = true → (round x).isFinite = true
  round_round : ∀ x, x.isFinite = true → round (round x) = round x
  round_whole : ∀ (x : Float) (n : Nat), x.isFinite = true → units x = n * unitsPerOne →
    round x = x

/-- Rounding to places is steady. -/
theorem steady_roundPlaces (places : Nat) : Steady fun x => roundPlaces x places where
  isFinite _ hx := (Number.roundPlaces_parts hx places).1
  round_round _ hx := Number.roundPlaces_roundPlaces hx places
  round_whole _ _ hx hn := Number.roundPlaces_of_whole hx hn places

/-- What was rounded and snapped stays where it is when it is rounded and snapped again. -/
theorem Steady.snap_round_snap {round : Float → Float} (h : Steady round) (hr : r.UpToOne)
    {x : Float} (hx : x.isFinite = true) :
    r.snap (round (r.snap (round x))) = r.snap (round x) := by
  rcases snap_cases hr.pos (h.isFinite x hx) with hv | hv | ⟨hv, -⟩
  · have hzero : round 0 = 0 := h.round_whole 0 0 (by decide +kernel) (by decide +kernel)
    rw [hv, hzero, snap_zero hr]
  · have hunit : round (r.snap (round x)) = r.snap (round x) := by
      refine h.round_whole _ 1 ?_ ?_ <;> rcases hv with hv | hv <;> rw [hv] <;> decide +kernel
    rw [hunit, snap_unit hr hv]
  · rw [hv, h.round_round x hx, hv]

/-- A settled value is finite. -/
theorem isFinite_settle (hpos : 0 < r.zeroThreshold) {x : Float} (hx : x.isFinite = true) :
    (r.settle x).isFinite = true := by
  have hrounded := (Number.roundPlaces_parts hx r.places).1
  show (r.snap (roundPlaces x r.places)).isFinite = true
  rcases snap_cases hpos hrounded with h | (h | h) | ⟨h, -⟩ <;> rw [h]
  · decide +kernel
  · decide +kernel
  · decide +kernel
  · exact hrounded

/-- A settled value stays where it is when it is settled again. -/
theorem settle_settle (hr : r.UpToOne) {x : Float} (hx : x.isFinite = true) :
    r.settle (r.settle x) = r.settle x :=
  (steady_roundPlaces r.places).snap_round_snap hr hx

/-- A whole number that stays where it is when it is snapped is settled. -/
theorem settle_of_whole {x : Float} (hx : x.isFinite = true) {n : Nat}
    (hn : units x = n * unitsPerOne) (h : r.snap x = x) : r.settle x = x := by
  show r.snap (roundPlaces x r.places) = x
  rw [Number.roundPlaces_of_whole hx hn, h]

/-! ## Factorials -/

/-- A factorial that is not too large is whole, and it is one or farther from one than one. -/
theorem factorial_parts (n : Fin (Combinatorics.mostFactors + 1)) :
    let v := ofNat (Combinatorics.productAbove 0 n)
    v.isFinite = true ∧ units v % unitsPerOne = 0 ∧ v.abs.isFinite = true ∧ 1 ≤ v.abs ∧
      (v = 1 ∨ (v.abs - 1).abs.isFinite = true ∧ 1 ≤ (v.abs - 1).abs) := by
  revert n
  decide +kernel

/-- A factorial is settled. -/
theorem settle_factorial (hr : r.UpToOne) {x v : Float}
    (h : Combinatorics.factorial x = .ok v) : v.isFinite = true ∧ r.settle v = v := by
  obtain ⟨n, -, h⟩ := Postfix.bind_eq_ok_iff.1 h
  split at h
  case isTrue => cases h
  case isFalse hfits =>
    obtain ⟨hfinite, rfl⟩ := finite_eq_ok_iff.1 h
    refine ⟨hfinite, ?_⟩
    have hparts := factorial_parts ⟨n, by omega⟩
    dsimp only at hparts
    generalize ofNat (Combinatorics.productAbove 0 n) = v at hfinite hparts ⊢
    obtain ⟨-, hwhole, habs, hone, hnext⟩ := hparts
    have hunits : units v = units v / unitsPerOne * unitsPerOne :=
      (Nat.div_mul_cancel (Nat.dvd_of_mod_eq_zero hwhole)).symm
    refine settle_of_whole hfinite hunits ?_
    rcases hnext with rfl | ⟨hapart, hfar⟩
    · exact snap_unit hr (.inl rfl)
    · have hrests : r.Rests v := ⟨hr.not_lt habs hone, fun h => hr.not_lt hapart hfar h.2⟩
      exact hrests.snap_eq hr.pos hfinite

end Rounding

/-! ## Finite values -/

/-- The outcome is a finite number, or it is a fault. -/
def ComesFinite (outcome : Except Fault Float) : Prop :=
  ∀ v, outcome = .ok v → v.isFinite = true

namespace ComesFinite

/-- A fault comes to no number at all. -/
theorem error (fault : Fault) : ComesFinite (.error fault) := by
  intro v h
  cases h

/-- A finite number comes to itself. -/
theorem ok {v : Float} (h : v.isFinite = true) : ComesFinite (.ok v) := by
  rintro _ ⟨⟩
  exact h

/-- What is checked to be finite is finite. -/
theorem finite (origin : Origin) (x : Float) : ComesFinite (SciCalc.finite origin x) := by
  intro v h
  obtain ⟨hx, rfl⟩ := finite_eq_ok_iff.1 h
  exact hx

/-- The outcome of steps is that of the last one. -/
theorem bind {α : Type} {outcome : Except Fault α} {next : α → Except Fault Float}
    (h : ∀ a, outcome = .ok a → ComesFinite (next a)) : ComesFinite (outcome >>= next) := by
  intro v hv
  obtain ⟨a, ha, hv⟩ := Postfix.bind_eq_ok_iff.1 hv
  exact h a ha v hv

/-- An operator comes to a finite number. -/
theorem operator (op : Operator) (a b : Float) : ComesFinite (op.apply a b) := by
  cases op with
  | add => exact finite _ _
  | subtract => exact finite _ _
  | multiply => exact finite _ _
  | divide =>
    rw [Operator.apply]
    split
    · exact error _
    · exact finite _ _
  | raise =>
    rw [Operator.apply]
    split
    · exact error _
    · exact finite _ _

/-- A counting function comes to a finite number. -/
theorem counting (x y : Float) : ComesFinite (Combinatorics.factorial x) ∧
    ComesFinite (Combinatorics.permutations x y) ∧
      ComesFinite (Combinatorics.combinations x y) := by
  have hlarge (f : MathFunction) : ComesFinite (Combinatorics.overflow f) := error _
  have hcount (f : MathFunction) (n : Nat) : ComesFinite (Combinatorics.rounded f n) := finite _ _
  refine ⟨bind fun n _ => ?_, bind fun p _ => ?_, bind fun p _ => ?_⟩
  · split
    · exact hlarge _
    · exact hcount _ _
  · obtain ⟨n, r⟩ := p
    dsimp only
    split
    · exact hlarge _
    · split
      · exact error _
      · exact hcount _ _
  · obtain ⟨n, r⟩ := p
    dsimp only
    split
    · exact hlarge _
    · exact hcount _ _

/-- A function comes to a finite number. -/
theorem apply (f : MathFunction) (vs : List Float) : ComesFinite (f.apply vs) := by
  match vs with
  | [] => cases f <;> exact error _
  | [x] =>
    cases f with
    | factorial => exact (counting x x).1
    | permutations => exact error _
    | combinations => exact error _
    | _ => exact finite _ _
  | x :: y :: rest =>
    cases f with
    | factorial => exact (counting x y).1
    | permutations => exact (counting x y).2.1
    | combinations => exact (counting x y).2.2
    | _ => exact finite _ _

/-- A tree comes to a finite number, if the last result is one. -/
theorem value {lastResult : Float} (hlast : lastResult.isFinite = true) (e : Expr) :
    ComesFinite (e.value lastResult) := by
  -- Only the operand of a negation hands its value on; every other node checks its own.
  cases e with
  | number v => exact finite _ _
  | pi => exact ok (by decide +kernel)
  | answer => exact ok hlast
  | negate e =>
    rw [Expr.value]
    exact bind fun a ha => ok (isFinite_neg (value hlast e a ha))
  | binary op l r =>
    rw [Expr.value]
    exact bind fun a _ => bind fun b _ => operator op a b
  | call f args =>
    rw [Expr.value]
    exact bind fun vs _ => apply f vs

end ComesFinite

/-- A text is evaluated to a settled value, if the last result is finite. -/
theorem evaluate_settled {source : String} {context : Context} {v : Float}
    (hlast : context.lastResult.isFinite = true) (h : evaluate source context = .ok v) :
    ∃ raw, raw.isFinite = true ∧ v = context.rounding.settle raw := by
  rw [evaluate_eq] at h
  rcases hraw : rawValue source context with fault | raw
  · rw [hraw] at h
    cases h
  · rw [hraw] at h
    obtain ⟨e, -, he⟩ := rawValue_eq_ok_iff.1 hraw
    exact ⟨raw, ComesFinite.value hlast e raw he, (Except.ok.inj h).symm⟩

end SciCalc
