import SciCalc.Number.Text
import SciCalc.Proofs.Encodings

/-!
# Numbers read back from their text

The digits of a natural number spell it, so the text of a decimal is read as a decimal of the same
value. The exact decimal of a magnitude has that magnitude's field, and so has the shortest one
whichever way it is found. Together they say that a finite number is read back from its text, bit
for bit, and that the text of a magnitude is digits with at most one point.
-/

set_option autoImplicit false

namespace SciCalc

namespace Decimal

/-! ## Digits -/

/-- A digit below ten is a digit. -/
theorem isDigit_digitChar {n : Nat} (h : n < 10) : (digitChar n).isDigit = true := by
  have all : ∀ k : Fin 10, (digitChar k).isDigit = true := by decide
  exact all ⟨n, h⟩

/-- A digit below ten stands for itself. -/
theorem toNat_digitChar {n : Nat} (h : n < 10) : (digitChar n).toNat = 48 + n := by
  have all : ∀ k : Fin 10, (digitChar k).toNat = 48 + k := by decide
  exact all ⟨n, h⟩

/-- A digit is one below ten. -/
theorem exists_digitChar {c : Char} (h : c.isDigit = true) : ∃ k : Fin 10, c = digitChar k := by
  obtain ⟨hfirst, hlast⟩ := Char.isDigit_iff_toNat.1 h
  have hfirst : 48 ≤ c.toNat := hfirst
  have hlast : c.toNat ≤ 57 := hlast
  refine ⟨⟨c.toNat - 48, by omega⟩, ?_⟩
  rw [digitChar, Nat.add_sub_cancel' hfirst, Char.ofNat_toNat]

/-- Every natural number has a digit. -/
theorem digits_ne_nil (n : Nat) : digits n ≠ [] := by
  rw [digits]
  split <;> simp

/-- Digits are digits. -/
theorem isDigit_of_mem_digits {n : Nat} {c : Char} (h : c ∈ digits n) : c.isDigit = true := by
  fun_induction digits n with
  | case1 n hn =>
    rw [List.mem_singleton.1 h]
    exact isDigit_digitChar hn
  | case2 n hn ih =>
    rcases List.mem_append.1 h with h | h
    · exact ih h
    · rw [List.mem_singleton.1 h]
      exact isDigit_digitChar (Nat.mod_lt n (by decide))

/-- The digits of a number and the zeros around them are digits. -/
theorem isDigit_of_mem_filled {n k : Nat} {c : Char}
    (h : c ∈ digits n ∨ c ∈ List.replicate k '0') : c.isDigit = true := by
  rcases h with h | h
  · exact isDigit_of_mem_digits h
  · rw [List.eq_of_mem_replicate h]
    rfl

/-- A last digit counts once, those before it ten times. -/
theorem ofDigits_append_singleton (ds : List Char) (c : Char) :
    ofDigits (ds ++ [c]) = 10 * ofDigits ds + (c.toNat - 48) := by
  simp [ofDigits]

/-- The digits of a number spell it. -/
theorem ofDigits_digits (n : Nat) : ofDigits (digits n) = n := by
  fun_induction digits n with
  | case1 n hn =>
    show 10 * 0 + ((digitChar n).toNat - 48) = n
    rw [toNat_digitChar hn]
    omega
  | case2 n hn ih =>
    rw [ofDigits_append_singleton, ih, toNat_digitChar (Nat.mod_lt n (by decide))]
    omega

/-- Zeros at the end multiply by powers of ten. -/
theorem ofDigits_append_zeros (ds : List Char) (k : Nat) :
    ofDigits (ds ++ List.replicate k '0') = ofDigits ds * Nat.pow 10 k := by
  induction k with
  | zero => simp
  | succ k ih =>
    have hzero : ('0'.toNat - 48) = 0 := rfl
    rw [List.replicate_succ', ← List.append_assoc, ofDigits_append_singleton, ih, hzero,
      Nat.add_zero, Nat.mul_comm, Nat.mul_assoc]
    rfl

/-- Zeros in front do not count. -/
theorem ofDigits_zeros_append (k : Nat) (ds : List Char) :
    ofDigits (List.replicate k '0' ++ ds) = ofDigits ds := by
  induction k with
  | zero => rfl
  | succ k ih => exact ih

/-! ## Reading -/

/-- Exactly the digits in front are taken, if no other digit follows. -/
theorem takeWhile_digits {ds rest : List Char} (hds : ∀ c ∈ ds, c.isDigit = true)
    (hrest : ∀ c ∈ rest.head?, c.isDigit = false) :
    (ds ++ rest).takeWhile Char.isDigit = ds ∧ (ds ++ rest).dropWhile Char.isDigit = rest := by
  rw [List.takeWhile_append_of_pos hds, List.dropWhile_append_of_pos hds]
  cases rest with
  | nil => simp
  | cons c rest => simp [hrest c rfl]

/-- Nothing but digits is read as a whole decimal. -/
theorem read?_digits {ds : List Char} (hne : ds ≠ []) (hds : ∀ c ∈ ds, c.isDigit = true) :
    read? ds = some ⟨ofDigits ds, 0⟩ := by
  obtain ⟨htake, hdrop⟩ := @takeWhile_digits ds [] hds (by simp)
  rw [List.append_nil] at htake hdrop
  simp [read?, htake, hdrop, fractionPart, exponentPart?, hne]

/-- Digits before and after a point are read as a decimal with as many places as stand after it. -/
theorem read?_point {ds es : List Char} (hne : ds ≠ []) (hds : ∀ c ∈ ds, c.isDigit = true)
    (hes : ∀ c ∈ es, c.isDigit = true) :
    read? (ds ++ '.' :: es) = some ⟨ofDigits (ds ++ es), -es.length⟩ := by
  have hpoint : ∀ c ∈ ('.' :: es).head?, c.isDigit = false := by simp
  obtain ⟨htake, hdrop⟩ := takeWhile_digits hds hpoint
  obtain ⟨htake', hdrop'⟩ := @takeWhile_digits es [] hes (by simp)
  rw [List.append_nil] at htake' hdrop'
  simp [read?, htake, hdrop, fractionPart, htake', hdrop', exponentPart?, hne]

/-- The point stands before as many digits as wanted, and before it at least one is left. -/
theorem exists_pointBefore (places : Nat) (ds : List Char) :
    ∃ whole fraction, pointBefore places ds = whole ++ '.' :: fraction ∧ whole ≠ [] ∧
      fraction.length = places ∧
      whole ++ fraction = List.replicate (places + 1 - ds.length) '0' ++ ds := by
  let filled := List.replicate (places + 1 - ds.length) '0' ++ ds
  have hlen : places < filled.length := by
    rw [List.length_append, List.length_replicate]
    omega
  refine ⟨filled.take (filled.length - places), filled.drop (filled.length - places), rfl, ?_, ?_,
    List.take_append_drop _ _⟩
  · refine List.ne_nil_of_length_pos ?_
    rw [List.length_take]
    omega
  · rw [List.length_drop]
    omega

/-- The text of a decimal is digits, or digits with a point that its exponent places. -/
theorem text_cases (d : Decimal) :
    (0 ≤ d.exponent ∧
        d.text = digits d.coefficient ++ List.replicate d.exponent.toNat '0') ∨
      d.exponent < 0 ∧ ∃ whole fraction zeros, d.text = whole ++ '.' :: fraction ∧ whole ≠ [] ∧
        fraction.length = (-d.exponent).toNat ∧
        whole ++ fraction = List.replicate zeros '0' ++ digits d.coefficient := by
  rw [text]
  split
  case isTrue hwhole => exact .inl ⟨hwhole, rfl⟩
  case isFalse hpoint =>
    obtain ⟨whole, fraction, h⟩ := exists_pointBefore (-d.exponent).toNat (digits d.coefficient)
    exact .inr ⟨Int.not_le.1 hpoint, whole, fraction, _, h⟩

/-- The text of a decimal is read as a decimal of the same value, with a whole power of ten. -/
theorem read?_text (d : Decimal) :
    read? d.text = some ⟨d.coefficient * Nat.pow 10 d.exponent.toNat, min d.exponent 0⟩ := by
  rcases d.text_cases with
    ⟨hwhole, htext⟩ | ⟨hpoint, whole, fraction, zeros, htext, hne, hlen, hall⟩
  · have hdigits : ∀ c ∈ d.text, c.isDigit = true := by
      intro c hc
      rw [htext] at hc
      exact isDigit_of_mem_filled (List.mem_append.1 hc)
    rw [read?_digits (by simp [htext, digits_ne_nil]) hdigits, htext, ofDigits_append_zeros,
      ofDigits_digits, Int.min_eq_right hwhole]
  · have hdigits : ∀ c ∈ whole ++ fraction, c.isDigit = true := by
      intro c hc
      rw [hall] at hc
      exact isDigit_of_mem_filled (List.mem_append.1 hc).symm
    obtain ⟨hwhole, hfraction⟩ := List.forall_mem_append.1 hdigits
    have hplaces : d.exponent.toNat = 0 := by omega
    have hexponent : (-fraction.length : Int) = min d.exponent 0 := by omega
    rw [htext, read?_point hne hwhole hfraction, hall, ofDigits_zeros_append, ofDigits_digits,
      hexponent, hplaces]
    simp

/-- The text of a decimal holds nothing but digits and a point. -/
theorem isDigit_or_point_of_mem_text {d : Decimal} {c : Char} (h : c ∈ d.text) :
    c.isDigit = true ∨ c = '.' := by
  rcases d.text_cases with ⟨-, htext⟩ | ⟨-, whole, fraction, zeros, htext, -, -, hall⟩
  · rw [htext] at h
    exact .inl (isDigit_of_mem_filled (List.mem_append.1 h))
  · have hparts : c = '.' ∨ c ∈ whole ++ fraction := by
      simpa [htext, or_left_comm] using h
    rw [hall] at hparts
    rcases hparts with h | h
    · exact .inr h
    · exact .inl (isDigit_of_mem_filled (List.mem_append.1 h).symm)

/-- The text of a decimal is not empty. -/
theorem text_ne_nil (d : Decimal) : d.text ≠ [] := by
  rcases d.text_cases with ⟨-, htext⟩ | ⟨-, whole, fraction, -, htext, -⟩
  · simp [htext, digits_ne_nil]
  · simp [htext]

/-! ## Fields -/

/-- No magnitude is larger than infinity. -/
theorem field_le (d : Decimal) : d.field ≤ Binary64.infinityField := by
  rw [field]
  split
  · exact Nat.zero_le _
  · split
    · exact Nat.le_refl _
    · split
      · exact Nat.zero_le _
      · exact Nat.min_le_left _ _

/-- The decimal that is read from the text of another has the same field, unless it is infinite. -/
theorem field_of_text {d : Decimal} (h : d.field < Binary64.infinityField) :
    field ⟨d.coefficient * Nat.pow 10 d.exponent.toNat, min d.exponent 0⟩ = d.field := by
  obtain ⟨coefficient, exponent⟩ := d
  -- Only a positive exponent is turned into zeros of the coefficient.
  rcases Int.lt_or_le exponent 0 with hneg | hpos
  · have hplaces : exponent.toNat = 0 := by omega
    have hexponent : min exponent 0 = exponent := by omega
    simp [hplaces, hexponent]
  by_cases hzero : coefficient = 0
  · simp [field, hzero]
  have hlarge : ¬400 < exponent := by
    intro hlarge
    simp [field, hzero, hlarge] at h
  have hexponent : min exponent 0 = 0 := by omega
  have hpow : 0 < Nat.pow 10 exponent.toNat := Nat.pow_pos (by decide)
  have hcoefficient : coefficient * Nat.pow 10 exponent.toNat ≠ 0 :=
    Nat.mul_ne_zero hzero (Nat.ne_of_gt hpow)
  have hplaces : (-exponent).toNat = 0 := by omega
  have hbounds : ¬(400 : Int) < 0 := by decide
  have hwide {n : Nat} {k : Int} (hk : 0 ≤ k) : ¬k < -(n + 400 : Int) := by omega
  rw [hexponent, field, if_neg hcoefficient, if_neg hbounds, if_neg (hwide (Int.le_refl 0)), field,
    if_neg hzero, if_neg hlarge, if_neg (hwide hpos), numerator, denominator, numerator,
    denominator, hplaces]
  simp

/-- One has units. -/
theorem unitsPerOne_pos : 0 < Binary64.unitsPerOne := by
  unfold Binary64.unitsPerOne
  generalize 1074 = k
  exact Nat.two_pow_pos k

/-- A number of 53 binary digits with zeros behind them has as many more digits. -/
theorem log2_mul_pow {m : Nat} (hlow : 2 ^ 52 ≤ m) (hhigh : m < 2 ^ 53) (k : Nat) :
    (m * 2 ^ k).log2 = 52 + k := by
  have hpow : 0 < 2 ^ k := Nat.two_pow_pos k
  have hne : m * 2 ^ k ≠ 0 := Nat.mul_ne_zero (by omega) (by omega)
  have hle : 52 + k ≤ (m * 2 ^ k).log2 := by
    rw [Nat.le_log2 hne, Nat.pow_add]
    exact Nat.mul_le_mul_right _ hlow
  have hlt : (m * 2 ^ k).log2 < 53 + k := by
    rw [Nat.log2_lt hne, Nat.pow_add]
    exact Nat.mul_lt_mul_of_pos_right hhigh hpow
  omega

/-- A count of least units that fits is rounded to itself. -/
theorem nearestField_unitsOfField {bits : Nat} (h : bits < Binary64.infinityField) :
    Binary64.nearestField (Binary64.unitsOfField bits) Binary64.unitsPerOne = bits := by
  have hround (units k : Nat) :
      Binary64.roundHalfEven (units * Binary64.unitsPerOne)
        (Binary64.unitsPerOne * Nat.pow 2 k) = Binary64.roundHalfEven units (Nat.pow 2 k) := by
    rw [Nat.mul_comm Binary64.unitsPerOne]
    exact Binary64.roundHalfEven_mul_right _ _ _ unitsPerOne_pos
  have hmin : min Binary64.infinityField bits = bits := Nat.min_eq_right (Nat.le_of_lt h)
  simp only [Binary64.nearestField, Nat.mul_div_cancel _ unitsPerOne_pos, hround]
  refine Eq.trans (congrArg _ ?_) hmin
  rw [Binary64.unitsOfField]
  split
  case isTrue hsmall =>
    -- Below the normal numbers the spacing is one unit.
    have hlog : bits.log2 - 52 = 0 := by
      by_cases hzero : bits = 0
      · simp [hzero]
      have hlt : bits < 2 ^ 52 := by simpa using hsmall
      have := (Nat.log2_lt hzero).2 hlt
      omega
    have hone := Binary64.roundHalfEven_mul_self bits 1 (by decide)
    rw [hlog]
    simpa using hone
  case isFalse hnormal =>
    -- The mantissa has 53 digits, so the spacing is that of the exponent.
    have hlow : 2 ^ 52 ≤ Nat.pow 2 52 + bits % Nat.pow 2 52 := Nat.le_add_right _ _
    have hhigh : Nat.pow 2 52 + bits % Nat.pow 2 52 < 2 ^ 53 := by
      simp only [Nat.pow_eq]
      omega
    have hlog := log2_mul_pow hlow hhigh (bits / Nat.pow 2 52 - 1)
    simp only [Nat.pow_eq] at hlog hnormal ⊢
    rw [hlog, Nat.add_sub_cancel_left, Binary64.roundHalfEven_mul_self _ _ (Nat.two_pow_pos _)]
    omega

/-- No least units are those of the field zero. -/
theorem eq_zero_of_unitsOfField {bits : Nat} (h : Binary64.unitsOfField bits = 0) : bits = 0 := by
  rw [Binary64.unitsOfField] at h
  split at h
  case isTrue => exact h
  case isFalse =>
    rcases Nat.mul_eq_zero.1 h with h | h
    · exact absurd (Nat.add_eq_zero_iff.1 h).1 (by decide)
    · exact absurd h (Nat.ne_of_gt (Nat.two_pow_pos _))

/-- A positive multiple of a power of five has at least as many binary digits. -/
theorem le_log2_mul_pow {n : Nat} (hn : n ≠ 0) (k : Nat) : k ≤ (n * Nat.pow 5 k).log2 := by
  have hpow : 5 ^ k ≤ n * 5 ^ k := Nat.le_mul_of_pos_left _ (Nat.pos_of_ne_zero hn)
  have hfive : 2 ^ k ≤ 5 ^ k := Nat.pow_le_pow_left (by decide) k
  rw [Nat.pow_eq, Nat.le_log2 (by have := Nat.two_pow_pos k; omega)]
  exact Nat.le_trans hfive hpow

/-- A binary fraction, written as a decimal with as many places, has the field nearest to it. -/
theorem field_mul_pow {n : Nat} (hn : n ≠ 0) {k : Nat} {exponent : Int} (h : exponent = -k) :
    field ⟨n * Nat.pow 5 k, exponent⟩ = Binary64.nearestField n (Nat.pow 2 k) := by
  have hpow : 0 < Nat.pow 5 k := Nat.pow_pos (by decide)
  have hten : Nat.pow 10 k = Nat.pow 2 k * Nat.pow 5 k := Nat.mul_pow 2 5 k
  have hcoefficient : n * Nat.pow 5 k ≠ 0 := Nat.mul_ne_zero hn (Nat.ne_of_gt hpow)
  have hlog := le_log2_mul_pow hn k
  have hsmall : ¬400 < exponent := by omega
  have hlarge : ¬exponent < -((n * Nat.pow 5 k).log2 + 400 : Int) := by omega
  have hplaces : (-exponent).toNat = k := by omega
  have hwhole : exponent.toNat = 0 := by omega
  rw [field, if_neg hcoefficient, if_neg hsmall, if_neg hlarge, numerator, denominator, hplaces,
    hwhole, hten, ← Binary64.nearestField_mul_right n (Nat.pow 2 k) _ hpow]
  exact congrArg (Binary64.nearestField · _) (Nat.mul_one _)

/-- The exact decimal of a magnitude has its field. -/
theorem field_exact {bits : Nat} (h : bits < Binary64.infinityField) :
    (exact (Binary64.unitsOfField bits)).field = bits := by
  by_cases hzero : Binary64.unitsOfField bits = 0
  · have hnone : (exact (Binary64.unitsOfField bits)).coefficient = 0 := by
      unfold exact
      exact Nat.mul_eq_zero.2 (.inl hzero)
    rw [field, if_pos hnone, eq_zero_of_unitsOfField hzero]
  · refine Eq.trans ?_ (nearestField_unitsOfField h)
    have hplaces : (-1074 : Int) = -(1074 : Nat) := rfl
    unfold exact Binary64.unitsPerOne
    -- Nothing about the least unit matters but that both sides have the same.
    generalize (1074 : Nat) = places at hplaces ⊢
    exact field_mul_pow hzero hplaces

/-- The shortest decimal of a magnitude has its field. -/
theorem field_shortest {bits : Nat} (h : bits < Binary64.infinityField) :
    (shortest bits).field = bits := by
  rcases shortest_eq_exact_or_field bits with hexact | hfield
  · rw [hexact, field_exact h]
  · exact hfield

end Decimal

namespace Number

open Binary64 (field infinityField isNegative ofField)

/-! ## The text of a number -/

/-- The text of a finite magnitude is one of a decimal that has its field. -/
theorem exists_magnitudeText {bits : Nat} (h : bits < infinityField) :
    ∃ d : Decimal, magnitudeText bits = d.text ∧ d.field = bits := by
  rw [magnitudeText, if_neg (Nat.ne_of_lt h)]
  split
  case isTrue hzero =>
    have htext : Decimal.text ⟨0, 0⟩ = ['0'] := by decide +kernel
    exact ⟨⟨0, 0⟩, htext.symm, hzero.symm⟩
  case isFalse => exact ⟨_, rfl, Decimal.field_shortest h⟩

/-- The text of a finite magnitude is not empty. -/
theorem magnitudeText_ne_nil {bits : Nat} (h : bits < infinityField) : magnitudeText bits ≠ [] := by
  obtain ⟨d, htext, -⟩ := exists_magnitudeText h
  rw [htext]
  exact d.text_ne_nil

/-- The text of a finite magnitude holds nothing but digits and a point. -/
theorem isDigit_or_point_of_mem_magnitudeText {bits : Nat} (h : bits < infinityField) :
    ∀ c ∈ magnitudeText bits, c.isDigit = true ∨ c = '.' := by
  obtain ⟨d, htext, -⟩ := exists_magnitudeText h
  rw [htext]
  exact fun c => Decimal.isDigit_or_point_of_mem_text

/-- The text of a finite number is that of its magnitude, behind its sign. -/
theorem chars_of_isFinite {x : Float} (h : x.isFinite = true) :
    chars x = if isNegative x then '-' :: magnitudeText (field x) else magnitudeText (field x) := by
  have hnumber : x.isNaN = false := by
    rw [Binary64.isFinite_eq] at h
    simpa using (Bool.and_eq_true_iff.1 h).1
  rw [chars, hnumber, if_neg (by simp)]

/-- A digit or a point is no capital letter. -/
theorem toLower_of_isDigit_or_point {c : Char} (h : c.isDigit = true ∨ c = '.') :
    c.toLower = c := by
  rcases h with h | rfl
  · have all : ∀ k : Fin 10, (Decimal.digitChar k).toLower = Decimal.digitChar k := by decide
    obtain ⟨k, rfl⟩ := Decimal.exists_digitChar h
    exact all k
  · rfl

/-- Digits and points are no word for an infinity or a NaN. -/
theorem special?_eq_none {cs : List Char} (h : ∀ c ∈ cs, c.isDigit = true ∨ c = '.')
    (negative : Bool) : special? negative cs = none := by
  have hword (first : Char) (rest : List Char) (hdigit : first.isDigit = false)
      (hpoint : first ≠ '.') : cs.map Char.toLower ≠ first :: rest := by
    intro heq
    obtain ⟨c, cs', rfl, hfirst, -⟩ := List.map_eq_cons_iff.1 heq
    have hc := h c (by simp)
    rw [toLower_of_isDigit_or_point hc] at hfirst
    subst hfirst
    simp [hdigit, hpoint] at hc
  have hinfinity : ¬(cs.map Char.toLower = "inf".toList ∨
      cs.map Char.toLower = "infinity".toList) :=
    not_or.2 ⟨hword 'i' _ rfl (by decide), hword 'i' _ rfl (by decide)⟩
  have hnan : cs.map Char.toLower ≠ "nan".toList := hword 'n' _ rfl (by decide)
  rw [special?, if_neg hinfinity, if_neg hnan]

/-- A finite magnitude is read back from its text, with any sign. -/
theorem unsigned?_magnitudeText {bits : Nat} (h : bits < infinityField) (negative : Bool) :
    unsigned? negative (magnitudeText bits) = some (ofField negative bits) := by
  obtain ⟨d, htext, rfl⟩ := exists_magnitudeText h
  have hword := special?_eq_none (fun c => Decimal.isDigit_or_point_of_mem_text (d := d)) negative
  rw [htext, unsigned?, hword, Decimal.read?_text, Option.map_some, Decimal.field_of_text h]
  rfl

/-- Behind a minus sign an unsigned number is read. -/
theorem ofChars?_minus (cs : List Char) : ofChars? ('-' :: cs) = unsigned? true cs := rfl

/-- What has no sign is read as it is. -/
theorem ofChars?_of_isDigit_or_point {cs : List Char} (h : ∀ c ∈ cs, c.isDigit = true ∨ c = '.') :
    ofChars? cs = unsigned? false cs := by
  unfold ofChars?
  split
  case h_1 => rcases h '-' (by simp) with h | h <;> cases h
  case h_2 => rcases h '+' (by simp) with h | h <;> cases h
  case h_3 => rfl

/-- A finite number is read back from its text. -/
theorem ofChars?_chars {x : Float} (h : x.isFinite = true) : ofChars? (chars x) = some x := by
  have hfield := (Binary64.isFinite_iff x).1 h
  have hread (negative : Bool) (hsign : isNegative x = negative) :
      unsigned? negative (magnitudeText (field x)) = some x := by
    rw [unsigned?_magnitudeText hfield, ← hsign, Binary64.ofField_field]
  rw [chars_of_isFinite h]
  cases hsign : isNegative x with
  | true =>
    rw [if_pos rfl, ofChars?_minus]
    exact hread true hsign
  | false =>
    rw [if_neg Bool.false_ne_true,
      ofChars?_of_isDigit_or_point (isDigit_or_point_of_mem_magnitudeText hfield)]
    exact hread false hsign

/-- A number that is read from digits and points has no sign. -/
theorem isNegative_of_ofChars? {cs : List Char} (h : ∀ c ∈ cs, c.isDigit = true ∨ c = '.')
    {x : Float} (hx : ofChars? cs = some x) : isNegative x = false := by
  rw [ofChars?_of_isDigit_or_point h, unsigned?, special?_eq_none h, Option.none_or] at hx
  obtain ⟨d, -, rfl⟩ := Option.map_eq_some_iff.1 hx
  exact Binary64.isNegative_ofField d.field_le false

end Number

end SciCalc
