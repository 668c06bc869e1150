import SciCalc.History.Record
import SciCalc.Proofs.Decimals

/-!
# Records and their lines

A record stands for its line when the line is read as that record. Every record that is read from a
line does, whatever the line, and so does the record of every calculation, since no number is
written with an equals sign. A record in general does exactly if its result holds no separator and
does not begin with the last two characters of one: those would make a second separator with the
blank that ends the first.
-/

set_option autoImplicit false

namespace SciCalc.History

/-! ## The last separator -/

/-- A line that is split is its parts with the separator between them. -/
theorem eq_of_splitLast?_eq_some {cs before after : List Char}
    (h : splitLast? cs = some (before, after)) : cs = before ++ (separator ++ after) := by
  induction cs generalizing before with
  | nil => cases h
  | cons c cs ih =>
    rw [splitLast?] at h
    rcases hsplit : splitLast? cs with _ | ⟨before', after'⟩
    · rw [hsplit] at h
      simp only at h
      split at h
      · next hseparator =>
        cases h
        obtain ⟨rest, hrest⟩ := List.isPrefixOf_iff_prefix.1 hseparator
        rw [← hrest]
        simp
      · cases h
    · rw [hsplit] at h
      cases h
      rw [ih hsplit]
      rfl

/-- A line is not split exactly if it holds no separator. -/
theorem splitLast?_eq_none_iff {cs : List Char} :
    splitLast? cs = none ↔ ¬separator <:+: cs := by
  induction cs with
  | nil => simp [splitLast?, separator]
  | cons c cs ih =>
    rw [splitLast?, List.infix_cons_iff, not_or]
    rcases hsplit : splitLast? cs with _ | ⟨before, after⟩
    · have hnone : ¬separator <:+: cs := ih.1 hsplit
      simp [hnone]
    · have hsome : ¬¬separator <:+: cs := fun h => by simp [ih.2 h] at hsplit
      simp [hsome]

/-- Without an equals sign behind the first character there is no separator. -/
theorem splitLast?_eq_none {cs : List Char} (h : '=' ∉ cs.tail) : splitLast? cs = none := by
  refine splitLast?_eq_none_iff.2 ?_
  rintro ⟨front, after, rfl⟩
  refine h ?_
  cases front <;> simp [separator]

/-- A line that is split is split at the same place behind any characters. -/
theorem splitLast?_append_of_eq_some {cs before after : List Char}
    (h : splitLast? cs = some (before, after)) (front : List Char) :
    splitLast? (front ++ cs) = some (front ++ before, after) := by
  induction front with
  | nil => exact h
  | cons c front ih => rw [List.cons_append, splitLast?, ih, List.cons_append]

/-- A separator is the last one if none begins behind its first character. -/
theorem splitLast?_append {after : List Char} (h : splitLast? ('=' :: ' ' :: after) = none)
    (before : List Char) : splitLast? (before ++ (separator ++ after)) = some (before, after) := by
  have hsplit : splitLast? (separator ++ after) = some ([], after) := by
    have hchars : separator ++ after = ' ' :: '=' :: ' ' :: after := rfl
    rw [hchars, splitLast?, h]
    rfl
  simpa using splitLast?_append_of_eq_some hsplit before

/-- The end of a separator and what follows hold no separator of their own. -/
theorem splitLast?_joint_eq_none_iff {after : List Char} :
    splitLast? ('=' :: ' ' :: after) = none ↔
      ¬separator <:+: after ∧ ¬['=', ' '] <+: after := by
  have hequals : ¬separator <+: '=' :: ' ' :: after := by simp [separator]
  have hblank : separator <+: ' ' :: after ↔ ['=', ' '] <+: after := by
    simp [separator, List.cons_prefix_cons]
  rw [splitLast?_eq_none_iff, List.infix_cons_iff, List.infix_cons_iff, hblank]
  tauto

/-! ## Numbers -/

/-- Decimals are written without an equals sign. -/
theorem equals_not_mem_text (d : Decimal) : '=' ∉ d.text := fun h =>
  absurd (Decimal.isDigit_or_point_of_mem_text h) (by decide)

/-- Numbers are written without an equals sign. -/
theorem equals_not_mem_chars (x : Float) : '=' ∉ Number.chars x := by
  have hmagnitude (bits : Nat) : '=' ∉ Number.magnitudeText bits := by
    rw [Number.magnitudeText]
    split
    · decide
    · split
      · decide
      · exact equals_not_mem_text _
  rw [Number.chars]
  split
  · decide
  · split
    · simpa using hmagnitude _
    · exact hmagnitude _

/-! ## Records -/

namespace Record

/-- The record's line is read as the record. -/
def Stable (r : Record) : Prop := ofText r.text = r

/-- The characters of a record's line. -/
theorem toList_text (r : Record) :
    r.text.toList = r.expression.toList ++ (separator ++ r.result.toList) := by
  simp [text, String.toList_append]

/-- A record whose result begins no separator is stable. -/
theorem stable_of_splitLast? {r : Record}
    (h : splitLast? ('=' :: ' ' :: r.result.toList) = none) : r.Stable := by
  rw [Stable, ofText, toList_text, splitLast?_append h]
  simp

/-- The record of any line is stable. -/
theorem stable_ofText (line : String) : (ofText line).Stable := by
  rcases hsplit : splitLast? line.toList with _ | ⟨before, after⟩
  · have hrecord : ofText line = ⟨line, ""⟩ := by rw [ofText, hsplit]
    rw [hrecord]
    exact stable_of_splitLast? (splitLast?_eq_none (by simp))
  · have hrecord : ofText line = ⟨String.ofList before, String.ofList after⟩ := by
      rw [ofText, hsplit]
    have htext : (ofText line).text = line := by
      rw [← String.toList_inj, toList_text, hrecord, eq_of_splitLast?_eq_some hsplit]
      simp
    rw [Stable, htext]

/-- The record of a calculation is stable. -/
theorem stable_ofCalculation (c : Calculation) : (ofCalculation c).Stable := by
  refine stable_of_splitLast? (splitLast?_eq_none ?_)
  simpa [ofCalculation, Number.text] using equals_not_mem_chars c.result

/-- A record is stable only if its result begins no separator. -/
theorem Stable.splitLast?_joint {r : Record} (h : r.Stable) :
    splitLast? ('=' :: ' ' :: r.result.toList) = none := by
  rcases hsplit : splitLast? ('=' :: ' ' :: r.result.toList) with _ | ⟨before, after⟩
  · rfl
  -- The line is read at the later separator, so what is read as the result is too short.
  have hlast := splitLast?_append_of_eq_some hsplit (r.expression.toList ++ [' '])
  have hline : r.expression.toList ++ [' '] ++ '=' :: ' ' :: r.result.toList = r.text.toList := by
    simp [toList_text, separator]
  rw [hline] at hlast
  rw [Stable, ofText, hlast] at h
  have hresult : after = r.result.toList := by
    rw [← h]
    simp
  have hlength := congrArg List.length (eq_of_splitLast?_eq_some hsplit)
  simp only [hresult, List.length_cons, List.length_append, separator, List.length_nil] at hlength
  omega

/--
The line of an expression and a result is read back exactly if the result holds no separator and
does not begin with the end of one. So the line of every calculation is read back, whatever its
expression, and reading any line, writing the record and reading it again changes nothing.
-/
theorem ofText_text_eq_iff :
    (∀ expression result : String,
        ofText (text ⟨expression, result⟩) = ⟨expression, result⟩ ↔
          ¬separator <:+: result.toList ∧ ¬['=', ' '] <+: result.toList) ∧
      (∀ c : Calculation, ofText (ofCalculation c).text = ofCalculation c) ∧
      ∀ line : String, ofText (ofText line).text = ofText line := by
  refine ⟨fun expression result => ?_, stable_ofCalculation, stable_ofText⟩
  rw [← splitLast?_joint_eq_none_iff]
  exact ⟨fun h => Stable.splitLast?_joint (r := ⟨expression, result⟩) h,
    fun h => stable_of_splitLast? (r := ⟨expression, result⟩) h⟩

/-- A result that begins with the end of a separator is read without it. -/
example : ofText (text ⟨"1+1", "= 2"⟩) = ⟨"1+1 =", "2"⟩ := by decide +kernel

end Record

end SciCalc.History
