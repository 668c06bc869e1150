import Mathlib.Tactic.SplitIfs
import SciCalc.History.StringList

/-!
# What is written is read back

The JSON text of a list of strings is read as that list. The reading is followed character by
character: an escaped character adds the character, the quotes end the string, and each comma or
bracket moves on between the elements.
-/

set_option autoImplicit false

namespace SciCalc.History.StringList

/-! ## Characters -/

/-- A unit that is no surrogate adds its character, whatever follows. -/
theorem decodeFrom_inside_unit {a b c d x : Char} {unit : Nat} (hunit : hex4? a b c d = some unit)
    (hx : unitChar? unit = some x) (acc cs : List Char) :
    decodeFrom (.inside acc) ('\\' :: 'u' :: a :: b :: c :: d :: cs) =
      decodeFrom (.inside (x :: acc)) cs := by
  rw [decodeFrom.eq_def]
  split <;> grind

/-- A simple escape adds its character, whatever follows. -/
theorem decodeFrom_inside_simple {c x : Char} (hc : c ≠ 'u') (hx : simpleEscape? c = some x)
    (acc cs : List Char) :
    decodeFrom (.inside acc) ('\\' :: c :: cs) = decodeFrom (.inside (x :: acc)) cs := by
  rw [decodeFrom.eq_def]
  split <;> grind

/-- A character that needs no escape adds itself. -/
theorem decodeFrom_inside_plain {c : Char} (hquote : c ≠ '"') (hescape : c ≠ '\\')
    (hcontrol : ¬c.toNat < 0x20) (acc cs : List Char) :
    decodeFrom (.inside acc) (c :: cs) = decodeFrom (.inside (c :: acc)) cs := by
  rw [decodeFrom.eq_def]
  split <;> grind

/-- The quotes end the string. -/
theorem decodeFrom_inside_quote (acc cs : List Char) :
    decodeFrom (.inside acc) ('"' :: cs) = (decodeFrom .after cs).map (acc.reverse :: ·) := by
  rw [decodeFrom.eq_def]
  split <;> grind

/-- The number of a control character is read back. -/
theorem hex4?_control {n : Nat} (h : n < 0x20) :
    hex4? '0' '0' (Text.hexDigit (n / 16)) (Text.hexDigit (n % 16)) = some n := by
  have hzero : Text.hexValue? '0' = some 0 := by decide
  simp only [hex4?, hzero, Text.hexValue?_hexDigit (show n / 16 < 16 by omega),
    Text.hexValue?_hexDigit (show n % 16 < 16 by omega)]
  simp only [Option.pure_def, Option.bind_eq_bind, Option.bind_some, Option.some.injEq]
  omega

/-- What a character is written as adds the character. -/
theorem decodeFrom_inside_escapeChar (c : Char) (acc cs : List Char) :
    decodeFrom (.inside acc) (escapeChar c ++ cs) = decodeFrom (.inside (c :: acc)) cs := by
  unfold escapeChar
  split_ifs with hquote hescape hbackspace htab hline hpage hreturn hcontrol
  · subst hquote
    exact decodeFrom_inside_simple (by decide) rfl acc cs
  · subst hescape
    exact decodeFrom_inside_simple (by decide) rfl acc cs
  · subst hbackspace
    exact decodeFrom_inside_simple (by decide) rfl acc cs
  · subst htab
    exact decodeFrom_inside_simple (by decide) rfl acc cs
  · subst hline
    exact decodeFrom_inside_simple (by decide) rfl acc cs
  · subst hpage
    exact decodeFrom_inside_simple (by decide) rfl acc cs
  · subst hreturn
    exact decodeFrom_inside_simple (by decide) rfl acc cs
  · have hunit : unitChar? c.toNat = some c := by
      rw [unitChar?, if_neg (by omega), Char.ofNat_toNat]
    exact decodeFrom_inside_unit (hex4?_control hcontrol) hunit acc cs
  · exact decodeFrom_inside_plain hquote hescape hcontrol acc cs

/-! ## Strings and lists -/

/-- What a string is written as adds its characters and ends. -/
theorem decodeFrom_inside_string (s acc cs : List Char) :
    decodeFrom (.inside acc) (s.flatMap escapeChar ++ '"' :: cs) =
      (decodeFrom .after cs).map ((acc.reverse ++ s) :: ·) := by
  induction s generalizing acc with
  | nil => simpa using decodeFrom_inside_quote acc cs
  | cons c s ih =>
    rw [List.flatMap_cons, List.append_assoc, decodeFrom_inside_escapeChar, ih, List.reverse_cons,
      List.append_assoc, List.singleton_append]

/-- What the elements behind the first are written as is read as those elements. -/
theorem decodeFrom_after_encodeRest (ss : List (List Char)) :
    decodeFrom .after (encodeRest ss) = some ss := by
  induction ss with
  | nil => rfl
  | cons s ss ih =>
    have hsplit : encodeString s ++ encodeRest ss =
        '"' :: (s.flatMap escapeChar ++ '"' :: encodeRest ss) := by simp [encodeString]
    have hcomma (cs : List Char) :
        decodeFrom .after (',' :: '"' :: cs) = decodeFrom (.inside []) cs := rfl
    rw [encodeRest, hsplit, hcomma, decodeFrom_inside_string, ih]
    rfl

/-- What a list of strings is written as is read as that list. -/
theorem decodeFrom_before_encodeChars (ss : List (List Char)) :
    decodeFrom .before (encodeChars ss) = some ss := by
  cases ss with
  | nil => rfl
  | cons s ss =>
    have hsplit : encodeString s ++ encodeRest ss =
        '"' :: (s.flatMap escapeChar ++ '"' :: encodeRest ss) := by simp [encodeString]
    have hopen (cs : List Char) :
        decodeFrom .before ('[' :: '"' :: cs) = decodeFrom (.inside []) cs := rfl
    rw [encodeChars, hsplit, hopen, decodeFrom_inside_string, decodeFrom_after_encodeRest]
    rfl

/-- The text of a list of strings is read as that list. -/
theorem decode?_encode (lines : List String) : decode? (encode lines) = some lines := by
  rw [decode?, encode, String.toList_ofList, decodeFrom_before_encodeChars]
  simp

end SciCalc.History.StringList
