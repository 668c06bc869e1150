import SciCalc.Proofs.Results

/-!
# Noise and opposites

Settling is meant to take noise to zero and to treat a number and its opposite alike. Rounding does
treat them alike, and so does every later step for a value that is not noise. Noise is first taken
to zero, but the snap to one looks at that zero again: with a threshold above one, zero is closer to
one than the threshold, and it becomes one, whatever sign the noise had. So what settling is meant
to do it does exactly for the settings whose zone around one does not reach zero.
-/

set_option autoImplicit false

namespace SciCalc

open Binary64

/-! ## Parts of an opposite -/

namespace Binary64

variable {x : Float} (hx : x.isFinite = true)

include hx

/-- An opposite has the other sign and the same field. -/
theorem parts_neg : isNegative (-x) = (!isNegative x) ∧ field (-x) = field x := by
  have hfield : field x ≤ infinityField := Nat.le_of_lt ((isFinite_iff x).1 hx)
  rw [neg_eq_ofField hx, isNegative_ofField hfield, field_ofField hfield]
  exact ⟨rfl, rfl⟩

/-- A magnitude has no sign and the same field. -/
theorem parts_abs : isNegative x.abs = false ∧ field x.abs = field x := by
  have hfield : field x ≤ infinityField := Nat.le_of_lt ((isFinite_iff x).1 hx)
  rw [abs_eq_ofField hx, isNegative_ofField hfield, field_ofField hfield]
  exact ⟨rfl, rfl⟩

/-- A magnitude is finite. -/
theorem isFinite_abs : x.abs.isFinite = true := by
  rw [isFinite_iff, (parts_abs hx).2]
  exact (isFinite_iff x).1 hx

/-- Opposites have the same magnitude. -/
theorem abs_neg_eq : (-x).abs = x.abs := by
  rw [abs_eq_ofField (isFinite_neg hx), abs_eq_ofField hx, (parts_neg hx).2]

end Binary64

namespace Number

variable {x : Float} (hx : x.isFinite = true)

include hx

/-- Opposites are rounded to opposites. -/
theorem roundPlaces_neg (places : Nat) : roundPlaces (-x) places = -roundPlaces x places := by
  obtain ⟨hfinite, hsign, hfield⟩ := roundPlaces_parts hx places
  obtain ⟨hnegative, hsame⟩ := parts_neg hx
  have hmultiple (k : Nat) : multipleOfPlaces (-x) k = multipleOfPlaces x k := by
    rw [multipleOfPlaces, multipleOfPlaces, units, units, hsame]
  rw [roundPlaces_eq (isFinite_neg hx), neg_eq_ofField hfinite, hsign, hfield, hnegative, hmultiple]

/-- The magnitude of a number is rounded to the magnitude of what the number is rounded to. -/
theorem roundPlaces_abs (places : Nat) : roundPlaces x.abs places = (roundPlaces x places).abs := by
  obtain ⟨hfinite, -, hfield⟩ := roundPlaces_parts hx places
  obtain ⟨hpositive, hsame⟩ := parts_abs hx
  have hmultiple (k : Nat) : multipleOfPlaces x.abs k = multipleOfPlaces x k := by
    rw [multipleOfPlaces, multipleOfPlaces, units, units, hsame]
  rw [roundPlaces_eq (isFinite_abs hx), abs_eq_ofField hfinite, hfield, hpositive, hmultiple]

end Number

/-! ## Settings that reach too far -/

/-- What is closer to one than the threshold is snapped to one, and zero is closer than that. -/
def Rounding.Overreaches (r : Rounding) : Prop := r.snapsToUnit = true ∧ 1 < r.zeroThreshold

/-- The settings ask for the snap to one and give a finite threshold above one. -/
def Settings.Overreaches (settings : Settings) : Prop :=
  settings.snapsToUnit = true ∧ settings.zeroThreshold.isFinite = true ∧ 1 < settings.zeroThreshold

/-- Whether settings overreach can be computed from them. -/
instance (settings : Settings) : Decidable settings.Overreaches :=
  inferInstanceAs (Decidable (_ ∧ _))

/--
The rounding of settings overreaches if the settings do; no other threshold above one is kept.
-/
theorem Settings.overreaches_rounding_iff (settings : Settings) :
    settings.rounding.Overreaches ↔ settings.Overreaches := by
  have hunit : (1 : Float).isFinite = true ∧ (0 : Float).isFinite = true := by decide +kernel
  have hplaces : place (0 : Float) < place (1 : Float) := by decide +kernel
  have hdefault : ¬(1 : Float) < 1e-10 := by decide +kernel
  simp only [Rounding.Overreaches, Settings.Overreaches, Settings.rounding]
  split
  case isTrue hgiven => simp [hgiven.1]
  case isFalse hgiven =>
    refine iff_of_false (fun h => hdefault h.2) fun hover => ?_
    obtain ⟨-, hfinite, hone⟩ := hover
    refine hgiven ⟨hfinite, ?_⟩
    rw [lt_iff_place hunit.1 hfinite] at hone
    rw [lt_iff_place hunit.2 hfinite]
    omega

namespace Rounding

open Number (roundPlaces)

variable {r : Rounding}

/-- Noise settles to one if the rounding overreaches, and to zero otherwise. -/
theorem settle_of_noise {x : Float} (h : (roundPlaces x r.places).abs < r.zeroThreshold) :
    (r.Overreaches → r.settle x = 1) ∧ (¬r.Overreaches → r.settle x = 0) := by
  have hzero : ((0 : Float).abs - 1).abs = 1 ∧ isNegative 0 = false := by decide +kernel
  have hclear : clearSignOfZero 0 = 0 ∧ clearSignOfZero 1 = 1 := by decide +kernel
  rw [settle, dropNoise, if_pos h, snapUnit, hzero.1, hzero.2]
  by_cases hover : r.snapsToUnit = true ∧ 1 < r.zeroThreshold
  · rw [if_pos hover]
    exact ⟨fun _ => hclear.2, fun h => absurd hover h⟩
  · rw [if_neg hover]
    exact ⟨fun h => absurd h hover, fun _ => hclear.1⟩

/-- Values that are not noise settle to opposites if they are opposites. -/
theorem settle_neg_of_not_noise (hpos : 0 < r.zeroThreshold) {x : Float} (hx : x.isFinite = true)
    (h : ¬(roundPlaces x r.places).abs < r.zeroThreshold) :
    (r.settle (-x) == -r.settle x) = true := by
  obtain ⟨hfinite, -, -⟩ := Number.roundPlaces_parts hx r.places
  have hopposite := Number.roundPlaces_neg hx r.places
  generalize hv : roundPlaces x r.places = v at h hfinite hopposite
  obtain ⟨hsign, -⟩ := parts_neg hfinite
  have hneg : (-v).isFinite = true := isFinite_neg hfinite
  have habs : (-v).abs = v.abs := abs_neg_eq hfinite
  show (r.snap (roundPlaces (-x) r.places) == -r.snap (roundPlaces x r.places)) = true
  rw [hopposite, hv]
  by_cases hnext : r.snapsToUnit ∧ (v.abs - 1).abs < r.zeroThreshold
  · -- Both are snapped, each by its own sign.
    rw [snap, snap, dropNoise, dropNoise, habs, if_neg h, if_neg h, snapUnit, snapUnit, habs,
      if_pos hnext, if_pos hnext, hsign]
    cases isNegative v <;> decide +kernel
  · have hrests : r.Rests v := ⟨h, hnext⟩
    have hrestsNeg : r.Rests (-v) := ⟨by rwa [habs], by rwa [habs]⟩
    rw [hrests.snap_eq hpos hfinite, hrestsNeg.snap_eq hpos hneg]
    exact (beq_iff_place hneg hneg).2 rfl

/-- Opposites settle to opposites, unless they are noise and the rounding overreaches. -/
theorem settle_neg_iff (hpos : 0 < r.zeroThreshold) {x : Float} (hx : x.isFinite = true) :
    (r.settle (-x) == -r.settle x) = true ↔
      ¬(r.Overreaches ∧ (roundPlaces x r.places).abs < r.zeroThreshold) := by
  by_cases hnoise : (roundPlaces x r.places).abs < r.zeroThreshold
  · have hnoiseNeg : (roundPlaces (-x) r.places).abs < r.zeroThreshold := by
      rwa [Number.roundPlaces_neg hx, abs_neg_eq (Number.roundPlaces_parts hx r.places).1]
    by_cases hover : r.Overreaches
    · rw [(settle_of_noise hnoise).1 hover, (settle_of_noise hnoiseNeg).1 hover]
      exact iff_of_false (by decide +kernel) fun h => h ⟨hover, hnoise⟩
    · rw [(settle_of_noise hnoise).2 hover, (settle_of_noise hnoiseNeg).2 hover]
      exact iff_of_true (by decide +kernel) fun h => hover h.1
  · exact iff_of_true (settle_neg_of_not_noise hpos hx hnoise) fun h => hnoise h.2

end Rounding

/--
With the rounding of settings, zero settles to zero, all noise settles to zero, and opposites settle
to opposite numbers, exactly if the settings do not overreach. If they do, all noise settles to one,
and only opposites that are noise do not settle to opposites.
-/
theorem settings_settle_noise_and_opposites (settings : Settings) :
    let r := settings.rounding
    let noise := fun x : Float => Number.roundPlaces x.abs r.places < r.zeroThreshold
    (r.settle 0 = 0 ↔ ¬settings.Overreaches) ∧
      (∀ x : Float, x.isFinite = true → noise x →
        (r.settle x = 0 ↔ ¬settings.Overreaches) ∧ (r.settle x = 1 ↔ settings.Overreaches)) ∧
      ∀ x : Float, x.isFinite = true →
        ((r.settle (-x) == -r.settle x) = true ↔ ¬(settings.Overreaches ∧ noise x)) := by
  intro r noise
  have hover : r.Overreaches ↔ settings.Overreaches := settings.overreaches_rounding_iff
  have hpos : 0 < r.zeroThreshold := settings.zeroThreshold_pos.2
  have hdistinct : (0 : Float) ≠ 1 := by decide +kernel
  have hnoise (x : Float) (hx : x.isFinite = true) :
      noise x ↔ (Number.roundPlaces x r.places).abs < r.zeroThreshold := by
    rw [← Number.roundPlaces_abs hx]
  have hsettle (x : Float) (hx : x.isFinite = true) (h : noise x) :
      (r.settle x = 0 ↔ ¬settings.Overreaches) ∧ (r.settle x = 1 ↔ settings.Overreaches) := by
    obtain ⟨hone, hzero⟩ := Rounding.settle_of_noise ((hnoise x hx).1 h)
    rw [← hover]
    by_cases hr : r.Overreaches
    · rw [hone hr]
      exact ⟨iff_of_false hdistinct.symm fun h => h hr, iff_of_true rfl hr⟩
    · rw [hzero hr]
      exact ⟨iff_of_true rfl hr, iff_of_false hdistinct hr⟩
  refine ⟨?_, hsettle, fun x hx => ?_⟩
  · have hzero : (0 : Float).isFinite = true ∧ (0 : Float).abs = 0 := by decide +kernel
    have hrounded : Number.roundPlaces 0 r.places = 0 :=
      Number.roundPlaces_of_whole hzero.1 (n := 0) (by decide +kernel) r.places
    have hnoise : noise 0 := by
      show Number.roundPlaces (0 : Float).abs r.places < r.zeroThreshold
      rw [hzero.2, hrounded]
      exact hpos
    exact (hsettle 0 hzero.1 hnoise).1
  · rw [Rounding.settle_neg_iff hpos hx, hover, hnoise x hx]

/-- With the threshold at one the zone around one does not reach zero yet. -/
theorem settings_settle_noise_and_opposites_up_to_one :
    let settings : Settings := { places := 3, zeroThreshold := 1 }
    let r := settings.rounding
    r.settle 0 = 0 ∧ r.settle (-0.9994) = 0 ∧ (r.settle (-1.5) == -r.settle 1.5) = true := by
  intro settings r
  have hover : ¬settings.Overreaches := by decide +kernel
  obtain ⟨hzero, hnoise, hopposite⟩ := settings_settle_noise_and_opposites settings
  refine ⟨hzero.2 hover, ?_, (hopposite 1.5 (by decide +kernel)).2 fun h => hover h.1⟩
  exact (hnoise (-0.9994) (by decide +kernel) (by decide +kernel)).1.2 hover

/-- With the threshold at two, zero settles to one, and so do a half and its opposite. -/
theorem settings_overreach_with_threshold_two :
    let r := ({ zeroThreshold := 2 } : Settings).rounding
    r.settle 0 = 1 ∧ r.settle 0.5 = 1 ∧ r.settle (-0.5) = 1 ∧
      (r.settle (-0.5) == -r.settle 0.5) = false := by
  decide +kernel

end SciCalc
