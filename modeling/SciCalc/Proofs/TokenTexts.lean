import SciCalc.Proofs.Decimals
import SciCalc.Proofs.Lexing

/-!
# Tokens read back from their text

Tokens are shown with blanks between them, and a blank cuts the reading, so a shown list is read
back token by token. A sign or a name is read back as the token it shows, and a literal is read back
from its digits if it is finite and has no sign. The last result and what is no token of the
language are not read back. Conversely no literal that is read from a text has a sign.
-/

set_option autoImplicit false

namespace SciCalc.Token

open Binary64 (isNegative)

/-! ## Numerals -/

/-- The characters of numerals are digits and the point. -/
theorem inNumeral_iff {c : Char} : inNumeral c = true ↔ c.isDigit = true ∨ c = '.' := by
  simp [inNumeral]

/-- A digit or a point starts a numeral. -/
theorem start_of_inNumeral {c : Char} (h : inNumeral c = true) :
    start c = ([], .numeral [c]) := by
  have hparts : Text.isBlank c = false ∧ ofSign? c = none ∧ c ≠ '*' ∧ startsWord c = false := by
    rcases inNumeral_iff.1 h with h | rfl
    · have all : ∀ k : Fin 10, Text.isBlank (Decimal.digitChar k) = false ∧
          ofSign? (Decimal.digitChar k) = none ∧ Decimal.digitChar k ≠ '*' ∧
            startsWord (Decimal.digitChar k) = false := by decide
      obtain ⟨k, rfl⟩ := Decimal.exists_digitChar h
      exact all k
    · decide
  obtain ⟨hblank, hsign, hstar, hword⟩ := hparts
  simp [start, hblank, hsign, hstar, hword, h]

/-- A numeral takes all the digits and points that follow. -/
theorem lexFrom_numeral {cs : List Char} (h : ∀ c ∈ cs, inNumeral c = true)
    (backwards : List Char) :
    lexFrom (.numeral backwards) cs = [ofNumeral (backwards.reverse ++ cs)] := by
  induction cs generalizing backwards with
  | nil => simp [lexFrom, Held.tokens]
  | cons c cs ih =>
    have hc : inNumeral c = true := h c (by simp)
    have hgrown : Held.extend? (.numeral backwards) c = some (.numeral (c :: backwards)) :=
      if_pos hc
    rw [lexFrom, hgrown]
    show lexFrom (.numeral (c :: backwards)) cs = _
    rw [ih fun d hd => h d (by simp [hd])]
    simp

/-- Digits and points are one numeral. -/
theorem lexFrom_nothing_numeral {cs : List Char} (hne : cs ≠ [])
    (h : ∀ c ∈ cs, inNumeral c = true) : lexFrom .nothing cs = [ofNumeral cs] := by
  obtain ⟨c, cs, rfl⟩ := List.exists_cons_of_ne_nil hne
  have hextend : Held.extend? .nothing c = none := rfl
  have hstart := start_of_inNumeral (h c (by simp))
  rw [lexFrom, hextend]
  show Held.tokens .nothing ++ (start c).1 ++ lexFrom (start c).2 cs = _
  rw [hstart, lexFrom_numeral fun d hd => h d (by simp [hd])]
  rfl

/-! ## Tokens and their texts -/

/-- The token is read back from its text. -/
def Legible : Token → Prop
  | number v => v.isFinite = true ∧ isNegative v = false
  | answer => False
  | negate => False
  | unknown _ => False
  | _ => True

/-- A legible token is read back from its text. -/
theorem lexFrom_text {t : Token} (h : t.Legible) : lexFrom .nothing t.text.toList = [t] := by
  cases t with
  | number v =>
    obtain ⟨hfinite, hsign⟩ := h
    have hread := Number.ofChars?_chars hfinite
    have hfield := (Binary64.isFinite_iff v).1 hfinite
    have hdigits := Number.isDigit_or_point_of_mem_magnitudeText hfield
    have hchars : (number v).text.toList = Number.chars v := String.toList_ofList
    rw [Number.chars_of_isFinite hfinite, hsign] at hread hchars
    have hnumeral := lexFrom_nothing_numeral (Number.magnitudeText_ne_nil hfield) fun c hc =>
      inNumeral_iff.2 (hdigits c hc)
    rw [hchars, if_neg (by simp), hnumeral, ofNumeral]
    rw [if_neg (by simp)] at hread
    rw [hread]
  | function f => cases f <;> decide +kernel
  | operator op => cases op <;> decide +kernel
  | pi => decide +kernel
  | opening => rfl
  | closing => rfl
  | comma => rfl
  | percent => rfl
  | factorialMark => rfl
  | permutationMark => rfl
  | combinationMark => rfl
  | answer => cases h
  | negate => cases h
  | unknown s => cases h

/-- Legible tokens are read back from their text. -/
theorem lex_listText {ts : List Token} (h : ∀ t ∈ ts, t.Legible) : lex (listText ts) = ts := by
  induction ts with
  | nil => rfl
  | cons t ts ih =>
    have ht := lexFrom_text (h t (by simp))
    have ih := ih fun u hu => h u (by simp [hu])
    rw [listText] at ih
    cases ts with
    | nil =>
      rw [lex, listText, List.map_cons, List.map_nil, String.intercalate_singleton, ht]
    | cons u ts =>
      have hsplit : (listText (t :: u :: ts)).toList =
          t.text.toList ++ ' ' :: (listText (u :: ts)).toList := by
        simp [listText, String.toList_append]
      have hblank : Text.isBlank ' ' = true := by decide
      -- The blank ends the first token whatever it is, and leaves nothing held.
      rw [lex, hsplit, lexFrom_append_cons (cuts_of_isBlank hblank), ht,
        lexFrom_nothing_blank hblank]
      exact congrArg (t :: ·) ih

/-! ## Literals that are read -/

/-- A numeral that is held consists of digits and points. -/
def Held.Sound : Held → Prop
  | numeral backwards => ∀ c ∈ backwards, inNumeral c = true
  | _ => True

/-- Nothing is sound. -/
theorem Held.sound_nothing : Held.nothing.Sound := trivial

/-- What is held stays sound as it grows. -/
theorem Held.Sound.extend? {held grown : Held} {c : Char} (h : held.Sound)
    (hgrown : held.extend? c = some grown) : grown.Sound := by
  cases held with
  | nothing => cases hgrown
  | word cs =>
    obtain ⟨-, hgrown⟩ := Option.ite_none_right_eq_some.1 hgrown
    cases hgrown
    trivial
  | numeral cs =>
    obtain ⟨hc, hgrown⟩ := Option.ite_none_right_eq_some.1 hgrown
    cases hgrown
    exact List.forall_mem_cons.2 ⟨hc, h⟩
  | star =>
    obtain ⟨-, hgrown⟩ := Option.ite_none_right_eq_some.1 hgrown
    cases hgrown
    trivial
  | doubleStar => cases hgrown

/-- A word is no literal. -/
theorem ofWord_ne_number (cs : List Char) (v : Float) : ofWord cs ≠ number v := by
  rw [ofWord]
  split
  · simp
  · split
    · simp
    · split <;> simp

/-- A literal that is held has no sign. -/
theorem Held.Sound.isNegative_of_mem {held : Held} (h : held.Sound) {v : Float}
    (hv : number v ∈ held.tokens) : isNegative v = false := by
  cases held with
  | nothing => simp [Held.tokens] at hv
  | word cs => exact absurd (List.mem_singleton.1 hv).symm (ofWord_ne_number _ v)
  | numeral cs =>
    have hnumeral : ofNumeral cs.reverse = number v := (List.mem_singleton.1 hv).symm
    rw [ofNumeral] at hnumeral
    split at hnumeral
    case h_1 w hw =>
      cases hnumeral
      exact Number.isNegative_of_ofChars? (fun c hc => inNumeral_iff.1 (h c (by simpa using hc))) hw
    case h_2 => cases hnumeral
  | star => simp [Held.tokens] at hv
  | doubleStar => simp [Held.tokens] at hv

/-- A sign brings no literal but the two of a square. -/
theorem eq_two_of_mem_ofSign? {c : Char} {ts : List Token} (h : ofSign? c = some ts) {v : Float}
    (hv : number v ∈ ts) : v = 2 := by
  unfold ofSign? at h
  split at h <;> cases h <;> simp_all

/-- A character that starts something holds a sound start, and its literal has no sign. -/
theorem sound_start (c : Char) :
    (start c).2.Sound ∧ ∀ v, number v ∈ (start c).1 → isNegative v = false := by
  have htwo : isNegative 2 = false := by decide +kernel
  rw [start]
  split
  case isTrue => exact ⟨trivial, by simp⟩
  case isFalse =>
    split
    case h_1 ts hts =>
      refine ⟨trivial, fun v hv => ?_⟩
      rw [eq_two_of_mem_ofSign? hts hv, htwo]
    case h_2 =>
      by_cases hstar : c = '*'
      · rw [if_pos hstar]
        exact ⟨trivial, by simp⟩
      rw [if_neg hstar]
      by_cases hword : startsWord c = true
      · rw [if_pos hword]
        exact ⟨trivial, by simp⟩
      rw [if_neg hword]
      by_cases hnumeral : inNumeral c = true
      · rw [if_pos hnumeral]
        exact ⟨List.forall_mem_singleton.2 hnumeral, by simp⟩
      · rw [if_neg hnumeral]
        exact ⟨trivial, by simp⟩

/-- No literal that is read from a text has a sign. -/
theorem Held.Sound.isNegative_of_mem_lexFrom {held : Held} (h : held.Sound) {cs : List Char}
    {v : Float} (hv : number v ∈ lexFrom held cs) : isNegative v = false := by
  fun_induction lexFrom held cs with
  | case1 held => exact h.isNegative_of_mem hv
  | case2 held c cs grown hgrown ih => exact ih (h.extend? hgrown) hv
  | case3 held c cs hnone ih =>
    obtain ⟨hsound, hstart⟩ := sound_start c
    rcases List.mem_append.1 hv with hv | hv
    · rcases List.mem_append.1 hv with hv | hv
      · exact h.isNegative_of_mem hv
      · exact hstart v hv
    · exact ih hsound hv

end SciCalc.Token
