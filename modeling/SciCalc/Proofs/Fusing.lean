import Mathlib.Algebra.Group.Nat.Even
import Mathlib.Data.List.DropRight
import SciCalc.Proofs.EntryTexts

/-!
# Cutting the line in two

The reader of a text goes on with what it holds at any point of the text, so the tokens of a text
are those of its two parts exactly if the second part does not extend what the first one leaves
held. Behind the entries of a line that is a numeral only if the last entry is a digit, a point or a
number, never a word, and one star exactly if the line ends in an odd number of multiplications. So
two neighbours that are not both part of a number fuse in one case only: when stars that have made
powers two by two leave one over, and another multiplication follows.
-/

set_option autoImplicit false

namespace SciCalc

open Binary64 (isNegative field)

namespace Token

/-! ## The reader at a point of the text -/

/-- What is held after one more character. -/
def Held.next (held : Held) (c : Char) : Held := (held.extend? c).getD (start c).2

/-- What is held after more characters. -/
def heldAfter (held : Held) (cs : List Char) : Held := cs.foldl Held.next held

/-- The tokens that are complete after more characters. -/
def complete : Held → List Char → List Token
  | _, [] => []
  | held, c :: cs =>
    match held.extend? c with
    | some grown => complete grown cs
    | none => held.tokens ++ (start c).1 ++ complete (start c).2 cs

/-- The first character is held before the others. -/
@[simp] theorem heldAfter_cons (held : Held) (c : Char) (cs : List Char) :
    heldAfter held (c :: cs) = heldAfter (held.next c) cs := rfl

/-- Joined characters are held one part after the other. -/
theorem heldAfter_append (held : Held) (cs ds : List Char) :
    heldAfter held (cs ++ ds) = heldAfter (heldAfter held cs) ds :=
  List.foldl_append

/-- The reader goes on with what it holds. -/
theorem lexFrom_append (held : Held) (cs ds : List Char) :
    lexFrom held (cs ++ ds) = complete held cs ++ lexFrom (heldAfter held cs) ds := by
  induction cs generalizing held with
  | nil => rfl
  | cons c cs ih =>
    rw [List.cons_append, lexFrom, complete, heldAfter_cons, Held.next]
    cases held.extend? c with
    | some grown => exact ih grown
    | none => simp [ih]

/-- A text is read in two parts exactly if the second does not extend what the first leaves held. -/
theorem lexFrom_append_eq_iff (held : Held) (cs ds : List Char) :
    lexFrom held (cs ++ ds) = lexFrom held cs ++ lexFrom .nothing ds ↔
      lexFrom (heldAfter held cs) ds = (heldAfter held cs).tokens ++ lexFrom .nothing ds := by
  have hfirst := lexFrom_append held cs []
  rw [List.append_nil] at hfirst
  rw [lexFrom_append, hfirst, List.append_assoc, List.append_cancel_left_eq, lexFrom]

/-! ## What characters leave held -/

/-- Behind a character that extends nothing, only it matters. -/
theorem heldAfter_concat {c : Char} (hc : Cuts c) (held : Held) (cs : List Char) :
    heldAfter held (cs ++ [c]) = (start c).2 := by
  rw [heldAfter_append]
  show Held.next _ c = _
  rw [Held.next, hc]
  rfl

/-- A star makes a power of one that is held. -/
theorem heldAfter_star : heldAfter .star ['*'] = .doubleStar := rfl

/-- A star behind anything else is held. -/
theorem heldAfter_of_ne_star {held : Held} (h : held ≠ .star) : heldAfter held ['*'] = .star := by
  cases held with
  | star => exact absurd rfl h
  | _ => rfl

/-- Digits and points are held as a numeral, unless a word goes on with them. -/
theorem exists_heldAfter_eq_numeral {held : Held} (hheld : ∀ ws, held ≠ .word ws) {ds : List Char}
    (hne : ds ≠ []) (hds : ∀ c ∈ ds, inNumeral c = true) :
    ∃ backwards, heldAfter held ds = .numeral backwards := by
  have hgrow (ds : List Char) (hds : ∀ c ∈ ds, inNumeral c = true) (backwards : List Char) :
      ∃ backwards', heldAfter (.numeral backwards) ds = .numeral backwards' := by
    induction ds generalizing backwards with
    | nil => exact ⟨backwards, rfl⟩
    | cons c ds ih =>
      have hnext : Held.next (.numeral backwards) c = .numeral (c :: backwards) := by
        simp [Held.next, Held.extend?, hds c (by simp)]
      rw [heldAfter_cons, hnext]
      exact ih (fun d hd => hds d (by simp [hd])) _
  obtain ⟨c, ds, rfl⟩ := List.exists_cons_of_ne_nil hne
  have hc : inNumeral c = true := hds c (by simp)
  have hstar : c ≠ '*' := by
    rintro rfl
    cases hc
  have hnext : ∃ backwards, held.next c = .numeral backwards := by
    cases held with
    | word ws => exact absurd rfl (hheld ws)
    | _ => simp [Held.next, Held.extend?, hc, hstar, start_of_inNumeral hc]
  obtain ⟨backwards, hnext⟩ := hnext
  rw [heldAfter_cons, hnext]
  exact hgrow ds (fun d hd => hds d (by simp [hd])) backwards

end Token

namespace Entry

open Token (Held heldAfter inNumeral)

/-! ## What entries leave held -/

/-- The entry is a digit, a point or a number. -/
def isNumber : Entry → Bool
  | digit _ | point | number _ => true
  | _ => false

/-- The entry is no number that is infinite or none at all. -/
def IsFinite : Entry → Prop
  | number v => v.isFinite = true
  | _ => True

/-- Whether an entry is a finite one can be computed from it. -/
instance : DecidablePred IsFinite
  | number v => inferInstanceAs (Decidable (v.isFinite = true))
  | digit _ | point | operator _ | function _ | opening | closing | comma | percent | factorialMark
  | permutationMark | combinationMark | pi | answer => .isTrue trivial

/-- The number of multiplications that a line ends in. -/
def multiplicationsAtEnd (es : List Entry) : Nat :=
  (es.rtakeWhile fun e => decide (e = operator .multiply)).length

/-- One more multiplication is counted, and any other entry ends the count. -/
theorem multiplicationsAtEnd_concat (es : List Entry) (e : Entry) :
    multiplicationsAtEnd (es ++ [e]) =
      if e = operator .multiply then multiplicationsAtEnd es + 1 else 0 := by
  rw [multiplicationsAtEnd, List.rtakeWhile_concat]
  split <;> simp_all [multiplicationsAtEnd]

/-- An entry that goes on a numeral or begins one is a digit, a point or a number. -/
theorem isNumber_of_isNumeral {e : Entry} (h : e.isNumeral = true) : e.isNumber = true := by
  cases e <;> first | rfl | cases h

/-- The text of an entry begins like a numeral only if it is a digit, a point or a number, and with
a star only if it is a multiplication. -/
theorem exists_source_cons {e : Entry} (h : e.IsFinite) :
    ∃ c cs, e.source.toList = c :: cs ∧ (inNumeral c = true → e.isNumber = true) ∧
      (c = '*' → e = operator .multiply) := by
  have hword {c : Char} (hc : c ≠ '*' ∧ inNumeral c = false) :
      (inNumeral c = true → e.isNumber = true) ∧ (c = '*' → e = operator .multiply) :=
    ⟨fun h => by simp [hc.2] at h, fun h => absurd h hc.1⟩
  have harithmetic (h : e.IsArithmetic) :
      ∃ c cs, e.source.toList = c :: cs ∧ (inNumeral c = true → e.isNumber = true) ∧
        (c = '*' → e = operator .multiply) := by
    obtain ⟨⟨c, cs, hsource, hc, hstar⟩, -⟩ := exists_cons h
    exact ⟨c, cs, hsource, fun h => isNumber_of_isNumeral (hc ▸ h), hstar⟩
  cases e with
  | function f => cases f <;> exact ⟨_, _, rfl, hword (by decide)⟩
  | comma => exact ⟨_, _, rfl, hword (by decide)⟩
  | answer => exact ⟨_, _, rfl, hword (by decide)⟩
  | _ => exact harithmetic h

/-- The text of an entry that is no digit, point or number and no multiplication leaves nothing
held, unless a word goes on with it. -/
theorem heldAfter_source_eq_nothing {e : Entry} (hnumber : e.isNumber = false)
    (hmultiply : e ≠ operator .multiply) {held : Held} (hheld : ∀ ws, held ≠ .word ws) :
    heldAfter held e.source.toList = .nothing := by
  have hcut {c : Char} (hc : Token.Cuts c) (hstart : (Token.start c).2 = .nothing)
      (cs : List Char) : heldAfter held (cs ++ [c]) = .nothing :=
    (Token.heldAfter_concat hc held cs).trans hstart
  have hsign {c : Char} (hstart : (Token.start c).2 = .nothing)
      (hcs : e.source.toList = [c])
      (hc : inNumeral c = false ∧ c ≠ '*') : heldAfter held e.source.toList = .nothing := by
    rw [hcs]
    cases held with
    | word ws => exact absurd rfl (hheld ws)
    | _ => simpa [heldAfter, Held.next, Held.extend?, hc]
  have hopening : Token.Cuts '(' := Token.cuts_of rfl rfl (by decide)
  cases e with
  | digit _ | point | number _ => cases hnumber
  | operator op =>
    cases op with
    | multiply => exact absurd rfl hmultiply
    | _ => exact hsign rfl rfl (by decide)
  | function f =>
    have hsource : (function f).source.toList = f.name.toList ++ ['('] := String.toList_append
    rw [hsource]
    exact hcut hopening rfl _
  | answer => exact hcut (Token.cuts_of_isBlank (by decide)) rfl ['a', 'n', 's']
  | _ => exact hsign rfl rfl (by decide)

/-- A number leaves a numeral held, or nothing behind its brackets. -/
theorem heldAfter_source_number {v : Float} (h : v.isFinite = true) {held : Held}
    (hheld : ∀ ws, held ≠ .word ws) :
    (∃ backwards, heldAfter held (number v).source.toList = .numeral backwards) ∨
      heldAfter held (number v).source.toList = .nothing := by
  have hfield := (Binary64.isFinite_iff v).1 h
  have hdigits : ∀ c ∈ Number.magnitudeText (field v), inNumeral c = true := fun c hc =>
    Token.inNumeral_iff.2 (Number.isDigit_or_point_of_mem_magnitudeText hfield c hc)
  cases hsign : isNegative v with
  | false =>
    have hnumeral : (number v).isNumeral = true := by simp [isNumeral, hsign]
    obtain ⟨ds, hne, hds, hsource, -⟩ := exists_numeral (e := number v) h hnumeral
    rw [hsource]
    exact .inl (Token.exists_heldAfter_eq_numeral hheld hne hds)
  | true =>
    rw [(texts_of_isNegative h hsign).2]
    split
    case isTrue =>
      have hclosing : Token.Cuts ')' := Token.cuts_of rfl rfl (by decide)
      exact .inr (Token.heldAfter_concat hclosing held ('(' :: '-' :: _))
    case isFalse =>
      have hminus : held.next '-' = .nothing := by
        rw [Held.next, Token.cuts_of rfl rfl (by decide) held]
        rfl
      rw [Token.heldAfter_cons, hminus]
      exact .inl (Token.exists_heldAfter_eq_numeral (by simp)
        (Number.magnitudeText_ne_nil hfield) hdigits)

/-- What the text of a line leaves held. -/
structure LeavesHeld (es : List Entry) (held : Held) : Prop where
  /-- Words are complete: a bracket or a blank stands behind them. -/
  ne_word : ∀ ws, held ≠ .word ws
  isNumber_of_eq_numeral : ∀ backwards, held = .numeral backwards →
    es.getLast?.any isNumber = true
  eq_star_iff : held = .star ↔ Odd (multiplicationsAtEnd es)

/-- One more entry. -/
theorem LeavesHeld.concat {es : List Entry} {held : Held} (h : LeavesHeld es held) {e : Entry}
    (he : e.IsFinite) : LeavesHeld (es ++ [e]) (heldAfter held e.source.toList) := by
  by_cases hmultiply : e = operator .multiply
  · subst hmultiply
    have hodd : Odd (multiplicationsAtEnd (es ++ [operator .multiply])) ↔ held ≠ .star := by
      rw [multiplicationsAtEnd_concat, if_pos rfl, Nat.odd_add_one, Ne, h.eq_star_iff]
    show LeavesHeld _ (heldAfter held ['*'])
    by_cases hstar : held = .star
    · rw [hstar, Token.heldAfter_star]
      exact ⟨by simp, by simp, by simp [hodd, hstar]⟩
    · rw [Token.heldAfter_of_ne_star hstar]
      exact ⟨by simp, by simp, by simp [hodd, hstar]⟩
  have heven : ¬Odd (multiplicationsAtEnd (es ++ [e])) := by
    rw [multiplicationsAtEnd_concat, if_neg hmultiply]
    decide
  have hnothing (hheld : heldAfter held e.source.toList = .nothing) :
      LeavesHeld (es ++ [e]) (heldAfter held e.source.toList) := by
    rw [hheld]
    exact ⟨by simp, by simp, by simp [heven]⟩
  cases hnumber : e.isNumber with
  | false => exact hnothing (heldAfter_source_eq_nothing hnumber hmultiply h.ne_word)
  | true =>
    have hnumeral (hheld : ∃ backwards, heldAfter held e.source.toList = .numeral backwards) :
        LeavesHeld (es ++ [e]) (heldAfter held e.source.toList) := by
      obtain ⟨backwards, hheld⟩ := hheld
      rw [hheld]
      exact ⟨by simp, by simp [hnumber], by simp [heven]⟩
    cases e with
    | number v => exact (heldAfter_source_number he h.ne_word).elim hnumeral hnothing
    | digit d =>
      obtain ⟨ds, hne, hds, hsource, -⟩ := exists_numeral (e := digit d) trivial rfl
      exact hnumeral (hsource ▸ Token.exists_heldAfter_eq_numeral h.ne_word hne hds)
    | point =>
      obtain ⟨ds, hne, hds, hsource, -⟩ := exists_numeral (e := point) trivial rfl
      exact hnumeral (hsource ▸ Token.exists_heldAfter_eq_numeral h.ne_word hne hds)
    | _ => cases hnumber

/-- What the text of a line leaves held. -/
theorem leavesHeld {es : List Entry} (hes : ∀ e ∈ es, e.IsFinite) :
    LeavesHeld es (heldAfter .nothing (sourceAll es).toList) := by
  induction es using List.reverseRecOn with
  | nil => exact ⟨by simp [sourceAll, heldAfter], by simp [sourceAll, heldAfter], by
      simp [sourceAll, heldAfter, multiplicationsAtEnd]⟩
  | append_singleton es e ih =>
    have hsource : (sourceAll (es ++ [e])).toList = (sourceAll es).toList ++ e.source.toList := by
      simp [sourceAll]
    rw [hsource, Token.heldAfter_append]
    exact (ih fun a ha => hes a (by simp [ha])).concat (hes e (by simp))

/-- A line in two parts, without a number that is cut, is read part by part unless the first one
ends in an odd number of multiplications and the second begins with another: then two stars are read
as a power. -/
theorem lex_sourceAll_append_iff {es fs : List Entry} (hes : ∀ e ∈ es, e.IsFinite)
    (hfs : ∀ e ∈ fs, e.IsFinite)
    (hcut : ¬(es.getLast?.any isNumber = true ∧ fs.head?.any isNumber = true)) :
    Token.lex (sourceAll (es ++ fs)) = Token.lex (sourceAll es) ++ Token.lex (sourceAll fs) ↔
      ¬(Odd (multiplicationsAtEnd es) ∧ fs.head? = some (operator .multiply)) := by
  have hheld := leavesHeld hes
  rw [sourceAll_append, Token.lex, String.toList_append]
  refine (Token.lexFrom_append_eq_iff ..).trans ?_
  rw [← hheld.eq_star_iff]
  generalize heldAfter .nothing (sourceAll es).toList = held at hheld ⊢
  cases fs with
  | nil => simp [sourceAll, Token.lexFrom, Held.tokens]
  | cons f fs =>
    obtain ⟨c, cs, hsource, hnumber, hstar⟩ := exists_source_cons (hfs f (by simp))
    have hsplits (hextend : held.extend? c = none) :
        Token.lexFrom held (sourceAll (f :: fs)).toList =
          held.tokens ++ Token.lexFrom .nothing (sourceAll (f :: fs)).toList := by
      rw [toList_sourceAll_cons, hsource]
      exact Token.lexFrom_of_extend?_eq_none _ hextend
    cases held with
    | word ws => exact absurd rfl (hheld.ne_word ws)
    | nothing | doubleStar => simpa using hsplits rfl
    | numeral backwards =>
      have hnone : inNumeral c = false := by
        rw [Bool.eq_false_iff]
        exact fun hc => hcut ⟨hheld.isNumber_of_eq_numeral _ rfl, hnumber hc⟩
      simp [hsplits (if_neg (by simp [hnone]))]
    | star =>
      by_cases hf : f = operator .multiply
      · subst hf
        -- The two sides begin with different tokens: a power and a multiplication.
        have hraise : Token.lexFrom .star (sourceAll (operator .multiply :: fs)).toList =
            Token.lexFrom .doubleStar (sourceAll fs).toList := by
          rw [toList_sourceAll_cons]
          rfl
        have hdouble : ∀ cs, (Token.lexFrom .doubleStar cs).head? = some (.operator .raise) := by
          intro cs
          cases cs <;> rfl
        simp only [List.head?_cons, not_true_eq_false, and_self, iff_false]
        intro hequal
        have hhead := congrArg List.head? hequal
        rw [hraise, hdouble] at hhead
        cases hhead
      · simp [hf, hsplits (if_neg fun hc => hf (hstar hc))]

/-- Behind two stars, which make a power, a third one stands for itself. -/
theorem lex_sourceAll_append_third_multiplication :
    let es := [answer, operator .multiply, operator .multiply]
    let fs := [operator .multiply, number (-3)]
    (∀ e ∈ es, e.IsFinite) ∧ (∀ e ∈ fs, e.IsFinite) ∧
      ¬(es.getLast?.any isNumber = true ∧ fs.head?.any isNumber = true) ∧
        Token.lex (sourceAll (es ++ fs)) =
          Token.lex (sourceAll es) ++ Token.lex (sourceAll fs) := by
  intro es fs
  have hes : ∀ e ∈ es, e.IsFinite := by decide
  have hfs : ∀ e ∈ fs, e.IsFinite := by decide +kernel
  have hcut : ¬(es.getLast?.any isNumber = true ∧ fs.head?.any isNumber = true) := by decide
  have heven : ¬Odd (multiplicationsAtEnd es) := by decide
  exact ⟨hes, hfs, hcut, (lex_sourceAll_append_iff hes hfs hcut).2 fun h => heven h.1⟩

/-- Not every such cut leaves the tokens as they are: two multiplications fuse into a power. -/
theorem lex_sourceAll_append_false :
    ¬∀ es fs : List Entry, (∀ e ∈ es, e.IsFinite) → (∀ e ∈ fs, e.IsFinite) →
      ¬(es.getLast?.any isNumber = true ∧ fs.head?.any isNumber = true) →
        Token.lex (sourceAll (es ++ fs)) =
          Token.lex (sourceAll es) ++ Token.lex (sourceAll fs) := by
  intro h
  have hfused := h [digit 2, operator .multiply] [operator .multiply, digit 3] (by decide)
    (by decide) (by decide)
  revert hfused
  decide +kernel

end Entry

end SciCalc
