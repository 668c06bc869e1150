import SciCalc.Proofs.Displays
import SciCalc.Proofs.Fusing

/-!
# Where an operand is awaited

An operand is awaited at the start and behind an operator, an opening bracket or a comma. The last
token decides it, and no pass of the preparation changes what it says; the reader is then in a state
before an operand, and in no such state otherwise. So it is the last key of a line that decides it.
Where an operand is awaited, what follows is read and written out by itself.

An operand that begins a product, and is not inside one, has nothing on the stack before it that a
division would release. That too can be told from the last keys: from the last one, but for plus
signs before the operand, which are ignored.
-/

set_option autoImplicit false

namespace SciCalc

namespace Token

/-! ## The last token -/

/-- Whether an operand is awaited behind the tokens, if one is awaited before them or not. -/
def awaitedAfter (awaited : Bool) (ts : List Token) : Bool :=
  ts.foldl (fun _ t => t.awaitsOperand) awaited

/-- No token changes nothing. -/
@[simp] theorem awaitedAfter_nil (awaited : Bool) : awaitedAfter awaited [] = awaited := rfl

/-- The first token alone says what is awaited behind it. -/
@[simp] theorem awaitedAfter_cons (awaited : Bool) (t : Token) (ts : List Token) :
    awaitedAfter awaited (t :: ts) = awaitedAfter t.awaitsOperand ts := rfl

/-- What is awaited behind joined tokens is read off one part after the other. -/
theorem awaitedAfter_append (awaited : Bool) (ts us : List Token) :
    awaitedAfter awaited (ts ++ us) = awaitedAfter (awaitedAfter awaited ts) us :=
  List.foldl_append

/-- An operand is awaited at the start or behind a last token that awaits one. -/
theorem awaitedAfter_eq_true_iff {ts : List Token} :
    awaitedAfter true ts = true ↔
      ts = [] ∨ ∃ before t, ts = before ++ [t] ∧ t.awaitsOperand = true := by
  rcases List.eq_nil_or_concat ts with rfl | ⟨before, t, rfl⟩
  · simp
  · rw [List.concat_eq_append, awaitedAfter_append]
    simp

/-! ## Preparing -/

/-- Percent signs are divided without changing what is awaited at the end. -/
theorem awaitedAfter_resolvePercent (awaited : Bool) (ts : List Token) :
    awaitedAfter awaited (resolvePercent ts) = awaitedAfter awaited ts := by
  fun_induction resolvePercent ts generalizing awaited with
  | case1 v ts ih => simp [hundredth, awaitsOperand, ih]
  | case2 ts ih => simp [hundredth, awaitsOperand, ih]
  | case3 ts _ ih => simp [awaitsOperand, ih]
  | case4 t ts _ _ _ ih => exact ih _
  | case5 => rfl

/-- Products are inserted without changing what is awaited at the end. -/
theorem awaitedAfter_insertProducts (awaited : Bool) (ts : List Token) :
    awaitedAfter awaited (insertProducts ts) = awaitedAfter awaited ts := by
  fun_induction insertProducts ts generalizing awaited with
  | case1 a b ts _ ih => exact ih _
  | case2 a b ts _ ih => exact ih _
  | case3 ts _ => rfl

/-- Factorials are written out without changing what is awaited at the end. -/
theorem awaitedAfter_expandFactorials (awaited : Bool) (ts : List Token) :
    awaitedAfter awaited (expandFactorials ts) = awaitedAfter awaited ts := by
  fun_induction expandFactorials ts generalizing awaited with
  | case1 v ts ih => simp [callOne, awaitsOperand, ih]
  | case2 t ts _ ih => exact ih _
  | case3 => rfl

/-- A mark between literals is written out without changing what is awaited at the end. -/
theorem awaitedAfter_expandBetween (mark : Token) (f : MathFunction) (awaited : Bool)
    (ts : List Token) :
    awaitedAfter awaited (expandBetween mark f ts) = awaitedAfter awaited ts := by
  fun_induction expandBetween mark f ts generalizing awaited with
  | case1 v w ts ih => simp [callTwo, awaitsOperand, ih]
  | case2 v t w ts _ ih => exact ih _
  | case3 t ts _ ih => exact ih _
  | case4 => rfl

/-- Shorthand is written out without a change in whether an operand is awaited. -/
theorem awaitedAfter_writeOut (awaited : Bool) (ts : List Token) :
    awaitedAfter awaited (writeOut ts) = awaitedAfter awaited ts := by
  rw [writeOut, expandMarks, awaitedAfter_expandBetween, awaitedAfter_expandBetween,
    awaitedAfter_expandFactorials, awaitedAfter_insertProducts, awaitedAfter_resolvePercent]

/-- A token that awaits an operand is no shorthand and ends no operand. -/
theorem plain_of_awaitsOperand {t : Token} (h : t.awaitsOperand = true) :
    t ≠ percent ∧ t.endsValue = false ∧ Inert t := by
  cases t <;> first | cases h; done | exact ⟨by simp, rfl, rfl, by simp, by simp, by simp⟩

/-- Shorthand is written out before and behind a place where an operand is awaited. -/
theorem writeOut_append_of_awaited {ts : List Token} (h : awaitedAfter true ts = true)
    (us : List Token) : writeOut (ts ++ us) = writeOut ts ++ writeOut us := by
  rcases awaitedAfter_eq_true_iff.1 h with rfl | ⟨before, t, rfl, ht⟩
  · rfl
  · obtain ⟨hpercent, hvalue, hinert⟩ := plain_of_awaitsOperand ht
    obtain ⟨written, hwritten, hwrite⟩ :=
      exists_writeOut_append_singleton hpercent hvalue hinert before
    rw [hwritten, List.append_assoc, List.append_assoc, List.singleton_append,
      List.singleton_append, hwrite]

end Token

/-! ## Reading -/

namespace Postfix

open Token (awaitedAfter)

variable {s s' : State}

/-- Where an operand is awaited the conversion is ready for one. -/
theorem State.exists_ready (h : s.awaitsOperand = true) :
    ∃ output pending, s = .ready output pending := by
  obtain ⟨output, pending, afterValue, awaiting⟩ := s
  cases afterValue with
  | true => cases h
  | false =>
    cases awaiting with
    | some f => cases h
    | none => exact ⟨output, pending, rfl⟩

/-- The reader awaits an operand behind tokens that do. -/
theorem awaitedAfter_of_readAll {ts : List Token} (h : readAll s ts = .ok s') :
    awaitedAfter s.awaitsOperand ts = s'.awaitsOperand := by
  induction ts generalizing s with
  | nil =>
    cases h
    rfl
  | cons t ts ih =>
    obtain ⟨s₁, hstep, h⟩ := readAll_cons_eq_ok_iff.1 h
    rw [Token.awaitedAfter_cons, (step_eq_ok_iff.1 hstep).awaitsOperand_eq]
    exact ih h

/-! ## What a sign leaves on the stack -/

variable {output : List Token} {pending : List Pending}

/-- Inside a bracket or behind a comma a division releases nothing. -/
theorem Step.stops_divide_of_bracket {t : Token} (h : Step s t (.ready output pending))
    (ht : t = .opening ∨ t = .comma) : Stops (Pending.precedes .divide) pending := by
  generalize hs' : State.ready output pending = s' at h
  cases h with
  | bracket | call | comma =>
    cases hs'
    exact stops_cons.2 rfl
  | operand => cases hs'
  | function => cases hs'
  | _ => rcases ht with ht | ht <;> cases ht

/-- Behind a sign of a product or a power a division releases it. -/
theorem Step.not_stops_divide {op : Operator} (h : Step s (.operator op) (.ready output pending))
    (hop : Pending.precedes .divide (.operator op) = true) :
    ¬Stops (Pending.precedes .divide) pending := by
  generalize hs' : State.ready output pending = s' at h
  cases h with
  | operand => cases hs'
  | operator =>
    cases hs'
    simp [stops_cons, hop]
  | _ => cases hop

/-- Behind a sum sign that is no sign of an operand a division releases nothing. -/
theorem Step.stops_divide_of_sum {op : Operator} (h : Step s (.operator op) (.ready output pending))
    (hop : op = .add ∨ op = .subtract) (hs : s.awaitsOperand = false) :
    Stops (Pending.precedes .divide) pending := by
  generalize hs' : State.ready output pending = s' at h
  cases h with
  | operand => cases hs'
  | operator =>
    cases hs'
    rcases hop with rfl | rfl <;> exact stops_cons.2 rfl
  | _ => cases hs

end Postfix

/-! ## The last key -/

namespace Token

/-- Whether an operand must follow the character. -/
def charAwaits (c : Char) : Bool := c == '*' || awaitedAfter false (start c).1

/-- The tokens of a sign are some, and no sign is a star. -/
theorem ne_of_ofSign? {c : Char} {ts : List Token} (h : ofSign? c = some ts) :
    ts ≠ [] ∧ c ≠ '*' := by
  unfold ofSign? at h
  split at h <;> first | (cases h; exact ⟨by simp, by decide⟩) | cases h

/-- No operand must follow a character of a word or a numeral. -/
theorem charAwaits_of_continues {c : Char} (h : continuesWord c = true ∨ inNumeral c = true) :
    charAwaits c = false := by
  have hstar : c ≠ '*' := by
    rintro rfl
    revert h
    decide
  have hsign {ts : List Token} (hts : ofSign? c = some ts) : awaitedAfter false ts = false := by
    unfold ofSign? at hts
    split at hts <;> cases hts <;> (revert h; decide)
  rw [charAwaits, beq_eq_false_iff_ne.2 hstar, Bool.false_or, start]
  split
  case isTrue => rfl
  case isFalse =>
    split
    case h_1 ts hts => exact hsign hts
    case h_2 =>
      split
      · rfl
      · split <;> rfl

/-- Behind a word no operand is awaited. -/
theorem awaitsOperand_ofWord (cs : List Char) : (ofWord cs).awaitsOperand = false := by
  simp only [ofWord]
  split
  · rfl
  · split
    · rfl
    · split <;> rfl

/-- What a character that is no blank starts says whether an operand must follow it. -/
theorem awaitedAfter_start {c : Char} (hblank : Text.isBlank c = false) (awaited : Bool) :
    awaitedAfter awaited ((start c).1 ++ (start c).2.tokens) = charAwaits c := by
  have hsome {ts : List Token} (hts : ts ≠ []) :
      awaitedAfter awaited ts = awaitedAfter false ts := by
    cases ts with
    | nil => exact absurd rfl hts
    | cons t ts => rfl
  rw [charAwaits, start, hblank, if_neg (by simp)]
  split
  case h_1 ts hts =>
    obtain ⟨hne, hstar⟩ := ne_of_ofSign? hts
    rw [beq_eq_false_iff_ne.2 hstar, Bool.false_or]
    exact (congrArg _ (List.append_nil ts)).trans (hsome hne)
  case h_2 =>
    by_cases hstar : c = '*'
    · rw [if_pos hstar, hstar]
      rfl
    · rw [if_neg hstar, beq_eq_false_iff_ne.2 hstar]
      split
      · exact awaitsOperand_ofWord [c]
      · split
        · exact awaitsOperand_ofNumeral [c]
        · rfl

/-- The last character of a text says whether an operand is awaited behind it, if it is no blank. -/
theorem awaitedAfter_lexFrom_concat {c : Char} (hblank : Text.isBlank c = false) (held : Held)
    (cs : List Char) (awaited : Bool) :
    awaitedAfter awaited (lexFrom held (cs ++ [c])) = charAwaits c := by
  rw [lexFrom_append, awaitedAfter_append]
  generalize awaitedAfter awaited (complete held cs) = awaited
  generalize heldAfter held cs = held
  have hnone (hextend : held.extend? c = none) :
      awaitedAfter awaited (lexFrom held [c]) = charAwaits c := by
    rw [lexFrom, hextend]
    show awaitedAfter awaited (held.tokens ++ (start c).1 ++ (start c).2.tokens) = _
    rw [List.append_assoc, awaitedAfter_append, awaitedAfter_start hblank]
  cases held with
  | nothing | doubleStar => exact hnone rfl
  | word ws =>
    by_cases hc : continuesWord c = true
    · have hextend : Held.extend? (.word ws) c = some (.word (c :: ws)) := if_pos hc
      rw [lexFrom, hextend, charAwaits_of_continues (.inl hc)]
      exact awaitsOperand_ofWord _
    · exact hnone (if_neg hc)
  | numeral ds =>
    by_cases hc : inNumeral c = true
    · have hextend : Held.extend? (.numeral ds) c = some (.numeral (c :: ds)) := if_pos hc
      rw [lexFrom, hextend, charAwaits_of_continues (.inr hc)]
      exact awaitsOperand_ofNumeral _
    · exact hnone (if_neg hc)
  | star =>
    by_cases hc : c = '*'
    · subst hc
      rfl
    · exact hnone (if_neg hc)

end Token

namespace Entry

open Token (Held heldAfter lexFrom charAwaits awaitedAfter)

/-- Whether an operand must follow the entry, in a bracket or a call too. -/
def opensOperand : Entry → Bool
  | operator _ | function _ | opening | comma => true
  | _ => false

/-- The text of a number ends with a digit, a point or a letter. -/
theorem exists_chars_eq_concat (v : Float) :
    ∃ cs c, Number.chars v = cs ++ [c] ∧ (c.isDigit = true ∨ c = '.' ∨ c = 'f' ∨ c = 'N') := by
  have hmagnitude (bits : Nat) : ∃ cs c, Number.magnitudeText bits = cs ++ [c] ∧
      (c.isDigit = true ∨ c = '.' ∨ c = 'f' ∨ c = 'N') := by
    rw [Number.magnitudeText]
    split
    · exact ⟨['i', 'n'], 'f', rfl, by simp⟩
    · split
      · exact ⟨[], '0', rfl, by decide⟩
      · have hne := (Decimal.shortest bits).text_ne_nil
        refine ⟨_, _, (List.dropLast_append_getLast hne).symm, ?_⟩
        rcases Decimal.isDigit_or_point_of_mem_text (List.getLast_mem hne) with h | h
        · exact .inl h
        · exact .inr (.inl h)
  obtain ⟨cs, c, htext, hc⟩ := hmagnitude (Binary64.field v)
  rw [Number.chars, htext]
  split
  · exact ⟨['N', 'a'], 'N', rfl, by simp⟩
  · split
    · exact ⟨'-' :: cs, c, rfl, hc⟩
    · exact ⟨cs, c, rfl, hc⟩

/-- The text of an entry, but for the blank behind the last result, ends with a character that says
whether an operand must follow. -/
theorem exists_source_eq_concat (e : Entry) :
    e = answer ∨ ∃ cs c, e.source.toList = cs ++ [c] ∧ Text.isBlank c = false ∧
      charAwaits c = e.opensOperand := by
  have hdigit (d : Fin 10) : Text.isBlank (Decimal.digitChar d) = false ∧
      charAwaits (Decimal.digitChar d) = false := by
    have all : ∀ d : Fin 10, Text.isBlank (Decimal.digitChar d) = false ∧
        charAwaits (Decimal.digitChar d) = false := by decide
    exact all d
  cases e with
  | answer => exact .inl rfl
  | digit d => exact .inr ⟨[], Decimal.digitChar d, by simp [source], hdigit d⟩
  | operator op => cases op <;> exact .inr ⟨[], _, rfl, by decide⟩
  | function f => exact .inr ⟨f.name.toList, '(', String.toList_append, by decide, rfl⟩
  | number v =>
    obtain ⟨cs, c, hchars, hc⟩ := exists_chars_eq_concat v
    refine .inr ?_
    rw [source]
    split
    case isTrue => exact ⟨'(' :: Number.chars v, ')', by simp [Number.text], by decide, rfl⟩
    case isFalse =>
      refine ⟨cs, c, (String.toList_ofList).trans hchars, ?_⟩
      rcases hc with hc | rfl | rfl | rfl
      · obtain ⟨d, rfl⟩ := Decimal.exists_digitChar hc
        exact hdigit d
      all_goals exact ⟨by decide, rfl⟩
  | _ => exact .inr ⟨[], _, rfl, by decide⟩

/-- The source of the last entry stands at the end. -/
theorem toList_sourceAll_concat (es : List Entry) (e : Entry) :
    (sourceAll (es ++ [e])).toList = (sourceAll es).toList ++ e.source.toList := by
  simp [sourceAll]

/-- The last entry of a line says whether an operand is awaited behind it. -/
theorem awaitedAfter_lex_sourceAll (es : List Entry) :
    awaitedAfter true (Token.lex (sourceAll es)) = es.getLast?.all opensOperand := by
  rcases List.eq_nil_or_concat es with rfl | ⟨es, e, rfl⟩
  · rfl
  rw [List.concat_eq_append, Token.lex, toList_sourceAll_concat, List.getLast?_concat,
    Option.all_some]
  rcases exists_source_eq_concat e with rfl | ⟨cs, c, hsource, hblank, hc⟩
  · have hsource : answer.source.toList = ['a', 'n'] ++ ['s'] ++ [' '] := rfl
    rw [hsource, ← List.append_assoc, ← List.append_assoc,
      Token.lexFrom_append_blanks (List.forall_mem_singleton.2 (by decide)),
      Token.awaitedAfter_lexFrom_concat (by decide)]
    rfl
  · rw [hsource, ← List.append_assoc, Token.awaitedAfter_lexFrom_concat hblank, hc]

/-- Where an operand is awaited, nothing is held but a star or two. -/
theorem heldAfter_source_of_opensOperand {e : Entry} (h : e.opensOperand = true) (held : Held) :
    heldAfter held e.source.toList = .nothing ∨ heldAfter held e.source.toList = .star ∨
      heldAfter held e.source.toList = .doubleStar := by
  have hcut (cs : List Char) {c : Char} (hsource : e.source.toList = cs ++ [c])
      (hc : Token.continuesWord c = false ∧ Token.inNumeral c = false ∧ c ≠ '*')
      (hstart : (Token.start c).2 = .nothing) : heldAfter held e.source.toList = .nothing := by
    rw [hsource, Token.heldAfter_concat (Token.cuts_of hc.1 hc.2.1 hc.2.2)]
    exact hstart
  cases e with
  | operator op =>
    cases op with
    | multiply =>
      refine .inr ?_
      by_cases hstar : held = .star
      · exact .inr (hstar ▸ Token.heldAfter_star)
      · exact .inl (Token.heldAfter_of_ne_star hstar)
    | _ => exact .inl (hcut [] rfl (by decide) rfl)
  | function f => exact .inl (hcut f.name.toList String.toList_append (by decide) rfl)
  | opening | comma => exact .inl (hcut [] rfl (by decide) rfl)
  | _ => cases h

/-- Where an operand is awaited, what follows is read by itself, unless it begins with a star. -/
theorem lexFrom_sourceAll_append {es : List Entry} (h : es.getLast?.all opensOperand = true)
    {c : Char} (hc : c ≠ '*') (cs : List Char) :
    lexFrom .nothing ((sourceAll es).toList ++ c :: cs) =
      Token.lex (sourceAll es) ++ lexFrom .nothing (c :: cs) := by
  refine (Token.lexFrom_append_eq_iff ..).2 (Token.lexFrom_of_extend?_eq_none cs ?_)
  rcases List.eq_nil_or_concat es with rfl | ⟨es, e, rfl⟩
  · rfl
  rw [List.concat_eq_append, List.getLast?_concat, Option.all_some] at h
  rw [List.concat_eq_append, toList_sourceAll_concat, Token.heldAfter_append]
  rcases heldAfter_source_of_opensOperand h (heldAfter .nothing (sourceAll es).toList) with
    hheld | hheld | hheld <;> rw [hheld]
  · rfl
  · exact if_neg hc
  · rfl

/-! ## What waits before an operand -/

/--
Whether an operand behind the entries, the last one first, begins a product: it is the first of the
line, of a bracket or of a call, or it stands behind a sum sign. Before an operand a plus sign is
ignored and a minus sign is a negation.
-/
def beginsProduct : List Entry → Bool
  | [] => true
  | opening :: _ | function _ :: _ | comma :: _ => true
  | operator .add :: es => es.head?.any (fun e => !e.opensOperand) || beginsProduct es
  | operator .subtract :: es => es.head?.any fun e => !e.opensOperand
  | _ => false

open Postfix (State Step Stops Pending readAll)
open Token (writeOut)

/-- An entry that ends with a sign brings that sign as the last token. -/
theorem lex_sourceAll_concat (es : List Entry) {e : Entry} (cs : List Char) {c : Char} {t : Token}
    (hsource : e.source.toList = cs ++ [c]) (hc : Token.Cuts c)
    (ht : lexFrom .nothing [c] = [t]) :
    Token.lex (sourceAll (es ++ [e])) =
      lexFrom .nothing ((sourceAll es).toList ++ cs) ++ [t] := by
  rw [Token.lex, toList_sourceAll_concat, hsource, ← List.append_assoc,
    Token.lexFrom_append_cons hc, ht]

/-- Two stars are one sign, so a multiplication can bring a power sign as the last token. -/
theorem exists_lex_sourceAll_multiply (es : List Entry) :
    ∃ ts op, Token.lex (sourceAll (es ++ [operator .multiply])) = ts ++ [.operator op] ∧
      Pending.precedes .divide (.operator op) = true := by
  have hsource : (operator .multiply).source.toList = ['*'] := rfl
  rw [Token.lex, toList_sourceAll_concat, hsource, Token.lexFrom_append]
  generalize heldAfter .nothing (sourceAll es).toList = held
  by_cases hstar : held = .star
  · subst hstar
    exact ⟨_, .raise, rfl, rfl⟩
  · have hextend : held.extend? '*' = none := by
      cases held with
      | star => exact absurd rfl hstar
      | _ => rfl
    rw [Token.lexFrom_of_extend?_eq_none [] hextend, ← List.append_assoc]
    exact ⟨_, .multiply, rfl, rfl⟩

/-- The last token of an entry that is no sum sign: a bracket or a comma, behind which a product
begins, or the sign of a product or a power. -/
theorem exists_lex_sourceAll_concat (es : List Entry) {e : Entry} (h : e.opensOperand = true)
    (hadd : e ≠ operator .add) (hsubtract : e ≠ operator .subtract) :
    ∃ ts t, Token.lex (sourceAll (es ++ [e])) = ts ++ [t] ∧
      ((t = .opening ∨ t = .comma) ∧ beginsProduct (e :: es.reverse) = true ∨
        (∃ op, t = .operator op ∧ Pending.precedes .divide (.operator op) = true) ∧
          beginsProduct (e :: es.reverse) = false) := by
  cases e with
  | operator op =>
    cases op with
    | add => exact absurd rfl hadd
    | subtract => exact absurd rfl hsubtract
    | multiply =>
      obtain ⟨ts, op, hlex, hop⟩ := exists_lex_sourceAll_multiply es
      exact ⟨ts, _, hlex, .inr ⟨⟨op, rfl, hop⟩, rfl⟩⟩
    | divide =>
      exact ⟨_, _, lex_sourceAll_concat es [] rfl (Token.cuts_of rfl rfl (by decide)) rfl,
        .inr ⟨⟨_, rfl, rfl⟩, rfl⟩⟩
    | raise =>
      exact ⟨_, _, lex_sourceAll_concat es [] rfl (Token.cuts_of rfl rfl (by decide)) rfl,
        .inr ⟨⟨_, rfl, rfl⟩, rfl⟩⟩
  | function f =>
    exact ⟨_, _, lex_sourceAll_concat es f.name.toList String.toList_append
      (Token.cuts_of rfl rfl (by decide)) rfl, .inl ⟨.inl rfl, rfl⟩⟩
  | opening =>
    exact ⟨_, _, lex_sourceAll_concat es [] rfl (Token.cuts_of rfl rfl (by decide)) rfl,
      .inl ⟨.inl rfl, rfl⟩⟩
  | comma =>
    exact ⟨_, _, lex_sourceAll_concat es [] rfl (Token.cuts_of rfl rfl (by decide)) rfl,
      .inl ⟨.inr rfl, rfl⟩⟩
  | _ => cases h

/-- The last sign before an operand is read last. -/
theorem exists_step_of_readAll {ts : List Token} {t : Token} {s : State}
    (ht : t.awaitsOperand = true) (h : readAll {} (writeOut (ts ++ [t])) = .ok s) :
    ∃ s₁, Step s₁ t s := by
  obtain ⟨hpercent, hvalue, hinert⟩ := Token.plain_of_awaitsOperand ht
  obtain ⟨written, hwritten, -⟩ :=
    Token.exists_writeOut_append_singleton hpercent hvalue hinert ts
  rw [hwritten] at h
  obtain ⟨s₁, -, hstep⟩ := Postfix.readAll_append_eq_ok_iff.1 h
  rw [Postfix.readAll_singleton] at hstep
  exact ⟨s₁, Postfix.step_eq_ok_iff.1 hstep⟩

/-- A sum sign is read behind the line before it, as a sign of its operand if that awaits one. -/
theorem exists_step_of_readAll_sum {op : Operator} (hop : op = .add ∨ op = .subtract)
    {es : List Entry} {s : State}
    (h : readAll {} (writeOut (Token.lex (sourceAll (es ++ [operator op])))) = .ok s) :
    ∃ s₁, readAll {} (writeOut (Token.lex (sourceAll es))) = .ok s₁ ∧
      Step s₁ (.operator op) s ∧ s₁.awaitsOperand = es.getLast?.all opensOperand := by
  have hlex : Token.lex (sourceAll (es ++ [operator op])) =
      Token.lex (sourceAll es) ++ [.operator op] := by
    have hnil : Token.lex (sourceAll es) = lexFrom .nothing ((sourceAll es).toList ++ []) := by
      rw [List.append_nil, Token.lex]
    rw [hnil]
    rcases hop with rfl | rfl
    · exact lex_sourceAll_concat es [] rfl (Token.cuts_of rfl rfl (by decide)) rfl
    · exact lex_sourceAll_concat es [] rfl (Token.cuts_of rfl rfl (by decide)) rfl
  rw [hlex, Token.writeOut_append_cons (.inr ⟨op, rfl⟩), Token.writeOut_operator] at h
  obtain ⟨s₁, hread, hstep⟩ := Postfix.readAll_append_eq_ok_iff.1 h
  have hnil : writeOut [] = [] := rfl
  rw [hnil, Postfix.readAll_singleton] at hstep
  refine ⟨s₁, hread, Postfix.step_eq_ok_iff.1 hstep, ?_⟩
  have hawaits := Postfix.awaitedAfter_of_readAll hread
  have hstart : State.awaitsOperand {} = true := rfl
  rw [← hawaits, hstart, Token.awaitedAfter_writeOut, awaitedAfter_lex_sourceAll]

/-- The stack before an operand has nothing on top that a division releases exactly if the operand
begins a product. -/
theorem stops_divide_iff {es : List Entry} (h : es.getLast?.all opensOperand = true)
    {output : List Token} {pending : List Pending}
    (hread : readAll {} (writeOut (Token.lex (sourceAll es))) = .ok (.ready output pending)) :
    Stops (Pending.precedes .divide) pending ↔ beginsProduct es.reverse = true := by
  induction es using List.reverseRecOn generalizing output pending with
  | nil =>
    cases hread
    exact iff_of_true (Postfix.stops_nil _) rfl
  | append_singleton es e ih =>
    rw [List.getLast?_concat, Option.all_some] at h
    rw [List.reverse_append, List.reverse_singleton, List.singleton_append]
    by_cases hsum : e = operator .add ∨ e = operator .subtract
    · obtain ⟨op, rfl, hop⟩ : ∃ op, e = operator op ∧ (op = .add ∨ op = .subtract) := by
        rcases hsum with rfl | rfl
        · exact ⟨_, rfl, .inl rfl⟩
        · exact ⟨_, rfl, .inr rfl⟩
      obtain ⟨s₁, hread', hstep, hawaits⟩ := exists_step_of_readAll_sum hop hread
      have hlast : es.reverse.head?.any (fun e => !e.opensOperand) = !s₁.awaitsOperand := by
        rw [hawaits, List.head?_reverse]
        cases es.getLast? <;> rfl
      cases hs : s₁.awaitsOperand with
      | false =>
        refine iff_of_true (hstep.stops_divide_of_sum hop hs) ?_
        rcases hop with rfl | rfl <;> (rw [beginsProduct, hlast, hs]; rfl)
      | true =>
        -- The sign belongs to the operand: a plus leaves the stack as it is, a minus waits on it.
        obtain ⟨output', pending', rfl⟩ := Postfix.State.exists_ready hs
        rcases hop with rfl | rfl
        · cases hstep
          rw [beginsProduct, hlast, hs, Bool.not_true, Bool.false_or]
          exact ih (hawaits.symm.trans hs) hread'
        · cases hstep
          refine iff_of_false (fun h => absurd (Postfix.stops_cons.1 h) (by decide)) ?_
          rw [beginsProduct, hlast, hs]
          simp
    · obtain ⟨hadd, hsubtract⟩ := not_or.1 hsum
      obtain ⟨ts, t, hlex, ⟨ht, hbegins⟩ | ⟨⟨op, rfl, hop⟩, hbegins⟩⟩ :=
        exists_lex_sourceAll_concat es h hadd hsubtract
      · have hawaits : t.awaitsOperand = true := by rcases ht with rfl | rfl <;> rfl
        obtain ⟨s₁, hstep⟩ := exists_step_of_readAll hawaits (hlex ▸ hread)
        exact iff_of_true (hstep.stops_divide_of_bracket ht) hbegins
      · obtain ⟨s₁, hstep⟩ := exists_step_of_readAll rfl (hlex ▸ hread)
        exact iff_of_false (hstep.not_stops_divide hop) (by simp [hbegins])

end Entry

end SciCalc
