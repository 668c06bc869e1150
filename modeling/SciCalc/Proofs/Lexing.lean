import SciCalc.Token.Lexer

/-!
# Reading text in parts

A character that extends no word, numeral or star cuts the text in two, and the tokens of the whole
are those of the parts. Signs and blanks are such characters, and blanks leave no tokens.
-/

set_option autoImplicit false

namespace SciCalc

namespace Text

/-- A text is its trimmed part between blanks. -/
theorem exists_blanks_around (cs : List Char) :
    ∃ first last, cs = first ++ (trimChars cs ++ last) ∧ (∀ c ∈ first, isBlank c = true) ∧
      ∀ c ∈ last, isBlank c = true := by
  refine ⟨cs.takeWhile isBlank, ((cs.dropWhile isBlank).reverse.takeWhile isBlank).reverse, ?_,
    List.all_eq_true.1 List.all_takeWhile, fun c hc => ?_⟩
  · rw [trimChars, ← List.reverse_append, List.takeWhile_append_dropWhile, List.reverse_reverse,
      List.takeWhile_append_dropWhile]
  · exact List.all_eq_true.1 List.all_takeWhile c (List.mem_reverse.1 hc)

end Text

namespace Token

/-- A character that extends nothing. -/
def Cuts (c : Char) : Prop := ∀ held : Held, held.extend? c = none

/-- A character of no word, no numeral and no power sign extends nothing. -/
theorem cuts_of {c : Char} (hword : continuesWord c = false) (hnumeral : inNumeral c = false)
    (hstar : c ≠ '*') : Cuts c := by
  intro held
  cases held <;> simp [Held.extend?, hword, hnumeral, hstar]

/-- Digits are ASCII characters above the space. -/
theorem toNat_of_isDigit {c : Char} (h : c.isDigit = true) : 0x20 < c.toNat ∧ c.toNat < 0x85 := by
  obtain ⟨hfirst, hlast⟩ := Char.isDigit_iff_toNat.1 h
  have hfirst : 48 ≤ c.toNat := hfirst
  have hlast : c.toNat ≤ 57 := hlast
  omega

/-- Letters are ASCII characters above the space. -/
theorem toNat_of_isAlpha {c : Char} (h : c.isAlpha = true) : 0x20 < c.toNat ∧ c.toNat < 0x85 := by
  rcases Bool.or_eq_true_iff.1 (show (c.isUpper || c.isLower) = true from h) with hupper | hlower
  · have hrange : c.val ≥ 'A'.val ∧ c.val ≤ 'Z'.val := of_decide_eq_true hupper
    have hfirst : 65 ≤ c.toNat := UInt32.le_iff_toNat_le.1 hrange.1
    have hlast : c.toNat ≤ 90 := UInt32.le_iff_toNat_le.1 hrange.2
    omega
  · have hrange := Bool.and_eq_true_iff.1 hlower
    have hfirst : 97 ≤ c.toNat := UInt32.le_iff_toNat_le.1 (of_decide_eq_true hrange.1)
    have hlast : c.toNat ≤ 122 := UInt32.le_iff_toNat_le.1 (of_decide_eq_true hrange.2)
    omega

/-- The characters of words are ASCII characters above the space. -/
theorem toNat_of_continuesWord {c : Char} (h : continuesWord c = true) :
    0x20 < c.toNat ∧ c.toNat < 0x85 := by
  have hcases : ((c.isAlpha || c.isDigit) || c == '_') = true := h
  simp only [Bool.or_eq_true, beq_iff_eq] at hcases
  rcases hcases with (halpha | hdigit) | rfl
  · exact toNat_of_isAlpha halpha
  · exact toNat_of_isDigit hdigit
  · decide

/-- The characters of numerals are ASCII characters above the space. -/
theorem toNat_of_inNumeral {c : Char} (h : inNumeral c = true) :
    0x20 < c.toNat ∧ c.toNat < 0x85 := by
  simp only [inNumeral, Bool.or_eq_true, beq_iff_eq] at h
  rcases h with hdigit | rfl
  · exact toNat_of_isDigit hdigit
  · decide

/-- A blank extends nothing. -/
theorem cuts_of_isBlank {c : Char} (h : Text.isBlank c = true) : Cuts c := by
  have hranges : c.toNat ≤ 0x20 ∨ 0x85 ≤ c.toNat := by
    simp [Text.isBlank, Text.blankRanges] at h
    omega
  refine cuts_of (Bool.eq_false_iff.2 fun hword => ?_) (Bool.eq_false_iff.2 fun hnumeral => ?_) ?_
  · have := toNat_of_continuesWord hword
    omega
  · have := toNat_of_inNumeral hnumeral
    omega
  · rintro rfl
    revert h
    decide

/-- A character that extends nothing cuts the text in two. -/
theorem lexFrom_append_cons {c : Char} (hc : Cuts c) (held : Held) (cs rest : List Char) :
    lexFrom held (cs ++ c :: rest) = lexFrom held cs ++ lexFrom .nothing (c :: rest) := by
  induction cs generalizing held with
  | nil => exact lexFrom_of_extend?_eq_none rest (hc held)
  | cons d cs ih =>
    rw [List.cons_append, lexFrom, lexFrom]
    cases held.extend? d with
    | none => simp [ih]
    | some grown => exact ih grown

/-- A blank leaves no tokens. -/
theorem lexFrom_nothing_blank {c : Char} (h : Text.isBlank c = true) (cs : List Char) :
    lexFrom .nothing (c :: cs) = lexFrom .nothing cs := by
  have hextend : Held.extend? .nothing c = none := rfl
  simp [lexFrom, hextend, Held.tokens, start, h]

/-- Blanks in front leave no tokens. -/
theorem lexFrom_blanks_append {blanks : List Char} (h : ∀ c ∈ blanks, Text.isBlank c = true)
    (cs : List Char) : lexFrom .nothing (blanks ++ cs) = lexFrom .nothing cs := by
  induction blanks with
  | nil => rfl
  | cons c blanks ih =>
    rw [List.cons_append, lexFrom_nothing_blank (h c (by simp)), ih fun d hd => h d (by simp [hd])]

/-- Blanks at the end leave no tokens. -/
theorem lexFrom_append_blanks {blanks : List Char} (h : ∀ c ∈ blanks, Text.isBlank c = true)
    (held : Held) (cs : List Char) : lexFrom held (cs ++ blanks) = lexFrom held cs := by
  cases blanks with
  | nil => simp
  | cons c blanks =>
    have hnone := lexFrom_blanks_append h []
    rw [List.append_nil, lexFrom_nothing_nil] at hnone
    rw [lexFrom_append_cons (cuts_of_isBlank (h c (by simp))), hnone, List.append_nil]

/-- Blanks at the ends of a text do not matter. -/
theorem lex_trim (s : String) : lex (Text.trim s) = lex s := by
  obtain ⟨first, last, hs, hfirst, hlast⟩ := Text.exists_blanks_around s.toList
  rw [lex, lex, hs, lexFrom_blanks_append hfirst, lexFrom_append_blanks hlast]
  simp [Text.trim]

/-! ## A text in brackets -/

/-- The text in brackets, squared. -/
def squaredText (source : String) : String := "(" ++ source ++ ")^2"

/-- Tokens in brackets, squared. -/
def squared (ts : List Token) : List Token :=
  opening :: (ts ++ [closing, operator .raise, number 2])

/-- A text that is bracketed and squared is read as its tokens, bracketed and squared. -/
theorem lex_squaredText (source : String) : lex (squaredText source) = squared (lex source) := by
  have hchars : (squaredText source).toList = '(' :: (source.toList ++ ')' :: ['^', '2']) := by
    simp [squaredText]
  have hopen : lexFrom .nothing ('(' :: (source.toList ++ ')' :: ['^', '2'])) =
      opening :: lexFrom .nothing (source.toList ++ ')' :: ['^', '2']) := rfl
  have hend : lexFrom .nothing [')', '^', '2'] = [closing, operator .raise, number 2] := by
    decide +kernel
  rw [lex, hchars, hopen, lexFrom_append_cons (cuts_of rfl rfl (by decide)), hend, squared, lex]

end Token

end SciCalc
