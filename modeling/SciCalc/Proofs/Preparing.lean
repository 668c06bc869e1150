import SciCalc.Evaluation
import SciCalc.Proofs.Degrees

/-!
# Preparing in parts

The preparation of tokens as one function of them, in three steps: the shorthand is written out,
missing closing brackets are put at the end, and angles are converted. Shorthand is written out on
both sides of a bracket or an operator by itself, and brackets, plus signs and function names have
none.
-/

set_option autoImplicit false

namespace SciCalc.Token

/-- The tokens with percent signs, juxtaposed operands and marks written out. -/
def writeOut (ts : List Token) : List Token := expandMarks (insertProducts (resolvePercent ts))

/-- The tokens of the plain language, with all brackets closed. -/
def toPlain (ts : List Token) : List Token :=
  expandMarks (insertProducts (closeBrackets (resolvePercent ts)))

/-- The tokens of the plain language, with their angles in radians. -/
def prepare (mode : AngleMode) (ts : List Token) : List Token := convertAngles mode (toPlain ts)

/-- The preparation of a text ends with the prepared tokens of its reading. -/
theorem inRadians_ofText (mode : AngleMode) (source : String) :
    (Preparation.ofText mode source).inRadians = prepare mode (lex source) := rfl

/-! ## Writing out -/

/-- A closing bracket or an operator. -/
def EndsOperand (t : Token) : Prop := t = closing ∨ ∃ op, t = operator op

namespace EndsOperand

variable {t : Token}

/-- What ends an operand is inert. -/
theorem inert (h : EndsOperand t) : Inert t := by
  rcases h with rfl | ⟨op, rfl⟩
  · exact inert_closing
  · exact inert_operator op

/-- No product sign is put before what ends an operand. -/
theorem noProduct (h : EndsOperand t) (a : Token) : NoProduct a t := by
  rcases h with rfl | ⟨op, rfl⟩ <;> simp [NoProduct, juxtaposed, startsValue]

/-- A percent sign does not end an operand. -/
theorem ne_percent (h : EndsOperand t) : t ≠ percent := by
  rcases h with rfl | ⟨op, rfl⟩ <;> simp

/-- A literal does not end an operand. -/
theorem isNumber (h : EndsOperand t) : t.isNumber = false := by
  rcases h with rfl | ⟨op, rfl⟩ <;> rfl

end EndsOperand

/-- Shorthand is written out on both sides of the end of an operand. -/
theorem writeOut_append_cons {t : Token} (ht : EndsOperand t) (ts us : List Token) :
    writeOut (ts ++ t :: us) = writeOut ts ++ writeOut (t :: us) := by
  have hpercent : Seam NoPercent ts (t :: us) :=
    seam_cons_right.2 fun a _ h => absurd h ht.ne_percent
  have hcons : resolvePercent (t :: us) = t :: resolvePercent us :=
    resolvePercent_cons ht.ne_percent (by simp [ht.isNumber])
  have hproduct (vs ws : List Token) : Seam NoProduct vs (t :: ws) :=
    seam_cons_right.2 fun a _ => ht.noProduct a
  obtain ⟨sign, hsign⟩ := exists_insertProducts_cons t (resolvePercent us)
  simp only [writeOut]
  rw [resolvePercent_append hpercent, hcons, insertProducts_append (hproduct _ _), hsign,
    expandMarks_append_cons ht.inert, expandMarks_cons ht.isNumber]

/-- Shorthand is written out behind a token that is no shorthand and ends no operand. -/
theorem writeOut_cons {t : Token} (hpercent : t ≠ percent) (hvalue : t.endsValue = false)
    (ht : t.isNumber = false) (us : List Token) : writeOut (t :: us) = t :: writeOut us := by
  simp only [writeOut]
  rw [resolvePercent_cons hpercent (by simp [ht]),
    insertProducts_cons fun b _ => by simp [NoProduct, juxtaposed, hvalue], expandMarks_cons ht]

/-- An operator in front stays and the rest is written out. -/
theorem writeOut_operator (op : Operator) (us : List Token) :
    writeOut (operator op :: us) = operator op :: writeOut us :=
  writeOut_cons (by simp) rfl rfl us

/-- An opening bracket in front stays and the rest is written out. -/
theorem writeOut_opening (us : List Token) : writeOut (opening :: us) = opening :: writeOut us :=
  writeOut_cons (by simp) rfl rfl us

/-- A function name in front stays and the rest is written out. -/
theorem writeOut_function (f : MathFunction) (us : List Token) :
    writeOut (function f :: us) = function f :: writeOut us :=
  writeOut_cons (by simp) rfl rfl us

/-- Shorthand is written out on both sides of a token that is no shorthand and ends no operand. The
token stays where it is. -/
theorem exists_writeOut_append_singleton {t : Token} (hpercent : t ≠ percent)
    (hvalue : t.endsValue = false) (ht : Inert t) (ts : List Token) :
    ∃ before, writeOut (ts ++ [t]) = before ++ [t] ∧
      ∀ us, writeOut (ts ++ t :: us) = before ++ t :: writeOut us := by
  have hlast : resolvePercent (ts ++ [t]) = resolvePercent ts ++ [t] := by
    rw [resolvePercent_append (seam_cons_right.2 fun a _ h => absurd h hpercent),
      resolvePercent_cons hpercent (by simp)]
    rfl
  obtain ⟨vs, hvs⟩ := exists_insertProducts_append_singleton (resolvePercent ts) t
  refine ⟨expandMarks vs, ?_, fun us => ?_⟩
  · rw [writeOut, hlast, hvs, expandMarks_append_cons ht]
    rfl
  · have hsplit : ts ++ t :: us = (ts ++ [t]) ++ us := by simp
    have hseam : Seam NoPercent (ts ++ [t]) us :=
      seam_append_singleton.2 fun b _ _ => ⟨ht.1, hpercent⟩
    have hproduct : Seam NoProduct (resolvePercent ts ++ [t]) (resolvePercent us) :=
      seam_append_singleton.2 fun b _ => by simp [NoProduct, juxtaposed, hvalue]
    simp only [writeOut]
    rw [hsplit, resolvePercent_append hseam, hlast, insertProducts_append hproduct, hvs,
      List.append_assoc, List.singleton_append, expandMarks_append_cons ht]

/-- Shorthand is written out on both sides of an opening bracket, which stays where it is. -/
theorem exists_writeOut_append_opening (ts : List Token) :
    ∃ before, writeOut (ts ++ [opening]) = before ++ [opening] ∧
      ∀ us, writeOut (ts ++ opening :: us) = before ++ opening :: writeOut us :=
  exists_writeOut_append_singleton (by simp) rfl inert_opening ts

/-- Writing out leaves no trace in the depth. -/
theorem depthAfter_writeOut (n : Nat) (ts : List Token) :
    depthAfter n (writeOut ts) = depthAfter n ts := by
  rw [writeOut, depthAfter_expandMarks, depthAfter_insertProducts, depthAfter_resolvePercent]

/-! ## Tokens without shorthand -/

/-- A token that is no shorthand and ends no operand: an opening bracket, a plus sign or a name. -/
def Silent (t : Token) : Prop := t = opening ∨ t = operator .add ∨ ∃ f, t = function f

/-- A literal is not silent. -/
theorem Silent.isNumber {t : Token} (h : Silent t) : t.isNumber = false := by
  rcases h with rfl | rfl | ⟨f, rfl⟩ <;> rfl

/-- Writing out leaves silent tokens as they are. -/
theorem writeOut_silent_append {ts : List Token} (h : ∀ t ∈ ts, Silent t) (us : List Token) :
    writeOut (ts ++ us) = ts ++ writeOut us := by
  induction ts with
  | nil => rfl
  | cons t ts ih =>
    have ih := ih fun u hu => h u (by simp [hu])
    rw [List.cons_append, List.cons_append, ← ih]
    rcases h t (by simp) with rfl | rfl | ⟨f, rfl⟩
    · exact writeOut_opening _
    · exact writeOut_operator _ _
    · exact writeOut_function _ _

/-- Tokens whose percent signs were divided are silent only if there were none. -/
theorem eq_of_resolvePercent_silent {ts : List Token} (h : ∀ t ∈ resolvePercent ts, Silent t) :
    resolvePercent ts = ts := by
  fun_induction resolvePercent ts with
  | case1 v ts _ =>
    have := (h (number v) (by simp [hundredth])).isNumber
    cases this
  | case2 ts _ =>
    have := (h (number 100) (by simp [hundredth])).isNumber
    cases this
  | case3 ts _ _ =>
    have := (h (number 100) (by simp)).isNumber
    cases this
  | case4 t ts _ _ _ ih => rw [ih fun u hu => h u (by simp [hu])]
  | case5 => rfl

/-- Tokens with products inserted are silent only if none were. -/
theorem eq_of_insertProducts_silent {ts : List Token} (h : ∀ t ∈ insertProducts ts, Silent t) :
    insertProducts ts = ts := by
  fun_induction insertProducts ts with
  | case1 a b ts _ _ =>
    rcases h (operator .multiply) (by simp) with h | h | ⟨f, h⟩ <;> cases h
  | case2 a b ts _ ih => rw [ih fun u hu => h u (by simp [hu])]
  | case3 ts _ => rfl

/-- Tokens with factorials written out are silent only if there were none. -/
theorem eq_of_expandFactorials_silent {ts : List Token} (h : ∀ t ∈ expandFactorials ts, Silent t) :
    expandFactorials ts = ts := by
  fun_induction expandFactorials ts with
  | case1 v ts _ =>
    have := (h (number v) (by simp [callOne])).isNumber
    cases this
  | case2 t ts _ ih => rw [ih fun u hu => h u (by simp [hu])]
  | case3 => rfl

/-- Tokens with a mark written out are silent only if it was nowhere. -/
theorem eq_of_expandBetween_silent {mark : Token} {f : MathFunction} {ts : List Token}
    (h : ∀ t ∈ expandBetween mark f ts, Silent t) : expandBetween mark f ts = ts := by
  fun_induction expandBetween mark f ts with
  | case1 v w ts _ =>
    have := (h (number v) (by simp [callTwo])).isNumber
    cases this
  | case2 v t w ts _ ih => rw [ih fun u hu => h u (by simp [hu])]
  | case3 t ts _ ih => rw [ih fun u hu => h u (by simp [hu])]
  | case4 => rfl

/-- Tokens that are written out to silent ones had no shorthand. -/
theorem eq_of_writeOut_silent {ts : List Token} (h : ∀ t ∈ writeOut ts, Silent t) :
    writeOut ts = ts := by
  simp only [writeOut, expandMarks] at h ⊢
  have hcombination := eq_of_expandBetween_silent h
  rw [hcombination] at h ⊢
  have hpermutation := eq_of_expandBetween_silent h
  rw [hpermutation] at h ⊢
  have hfactorial := eq_of_expandFactorials_silent h
  rw [hfactorial] at h ⊢
  have hproduct := eq_of_insertProducts_silent h
  rw [hproduct] at h ⊢
  exact eq_of_resolvePercent_silent h

/-! ## Closing brackets at the end -/

/-- The closing brackets at the end stay at the end. -/
theorem toPlain_eq (ts : List Token) :
    toPlain ts = writeOut ts ++ List.replicate (missingClosings (resolvePercent ts)) closing := by
  have hend (us : List Token) (n : Nat) :
      expandMarks (insertProducts (us ++ List.replicate n closing)) =
        expandMarks (insertProducts us) ++ List.replicate n closing := by
    induction n with
    | zero => simp
    | succ n ih =>
      have hseam (vs : List Token) : Seam NoProduct vs [closing] :=
        seam_cons_right.2 fun a _ => by simp [NoProduct, juxtaposed, startsValue]
      have hlast : insertProducts [closing] = [closing] := rfl
      rw [List.replicate_succ', ← List.append_assoc, insertProducts_append (hseam _), hlast,
        expandMarks_append_cons inert_closing, ih, ← List.append_assoc]
      rfl
  exact hend (resolvePercent ts) _

/-- The brackets open behind the tokens are closed at the end. -/
theorem toPlain_of_depthAfter {ts : List Token} {m : Nat} (h : depthAfter 0 ts = some m) :
    toPlain ts = writeOut ts ++ List.replicate m closing := by
  rw [toPlain_eq, missingClosings_of_depthAfter (m := m)]
  rw [depthAfter_resolvePercent, h]

/-- Tokens with a surplus closing bracket keep it. -/
theorem depthAfter_prepare_eq_none (mode : AngleMode) {ts : List Token}
    (h : depthAfter 0 ts = none) : depthAfter 0 (prepare mode ts) = none := by
  have hplain : depthAfter 0 (toPlain ts) = none := by
    rw [toPlain_eq, depthAfter_append, depthAfter_writeOut, h]
    rfl
  cases mode with
  | radians => exact hplain
  | degrees =>
    have hdegrees := depthAfter_convertWithin [] (toPlain ts)
    rw [List.length_nil, hplain] at hdegrees
    exact hdegrees

end SciCalc.Token
