import SciCalc.Proofs.Awaiting
import SciCalc.Proofs.Closing
import SciCalc.Proofs.Comparing
import SciCalc.Proofs.Spelling
import SciCalc.Proofs.Unwinding

/-!
# A recalled number as one operand

A recalled number below zero stands on the line in brackets, so that what is typed behind it
applies to the whole of it. Whether it does is told by comparing the line with one on which a single
literal stands in its place. Both are read from the same place, where an operand is awaited, and
what either writes behind it is a function of the stack there, its tail. A power sign takes a
bracket as it takes a literal. A factorial mark takes a literal only, so behind a bracket it is
refused. A percent sign brackets the hundredth of a literal, but behind a bracket it is a division,
which comes after what waits on the stack. And the number minus zero has a sign but no brackets.
-/

set_option autoImplicit false

namespace SciCalc

open Binary64 (isNegative field ofField)
open Token (awaitedAfter Matched writeOut toPlain prepare lex)

/-! ## Operands at the end of a line -/

namespace Postfix

/--
Wherever an operand is awaited, the tokens are read as one. If it ends the line, the closing
brackets behind it write the tail of what waits on the stack.
-/
def EndsAs (ts : List Token) (tail : List Pending → List Token) : Prop :=
  ∀ output pending, ∃ output' pending',
    readAll (.ready output pending) ts = .ok (.filled output' pending') ∧
      (Saturated pending' ↔ Saturated pending) ∧
        output'.reverse ++ unwound pending' = output.reverse ++ tail pending

/-- The tokens lead to a place where an operand is awaited and every open call is complete. -/
structure LeadsTo (before output : List Token) (pending : List Pending) : Prop where
  read : readAll {} (writeOut before) = .ok (.ready output pending)
  saturated : Saturated pending

section

variable {before ts us : List Token} {tail tail' : List Pending → List Token}
  (hbefore : awaitedAfter true before = true)

include hbefore

/-- Behind tokens that await an operand the reader awaits one. -/
theorem exists_ready_of_readAll_writeOut {s : State} (h : readAll {} (writeOut before) = .ok s) :
    ∃ output pending, s = .ready output pending := by
  have hawaits := awaitedAfter_of_readAll h
  rw [Token.awaitedAfter_writeOut] at hawaits
  exact State.exists_ready (hawaits.symm.trans hbefore)

/-- An operand ends the line well where it is led to, and its tail ends the postfix form. -/
theorem ofInfix_toPlain_append_eq_ok_iff (hts : Matched ts) (htail : EndsAs (writeOut ts) tail)
    (listing : List Token) :
    ofInfix (toPlain (before ++ ts)) = .ok listing ↔ ∃ output pending,
      LeadsTo before output pending ∧ listing = output.reverse ++ tail pending := by
  cases hdepth : Token.depthAfter 0 before with
  | none =>
    have hlost : Token.depthAfter 0 (toPlain (before ++ ts)) = none := by
      rw [Token.toPlain_eq, Token.depthAfter_append, Token.depthAfter_writeOut,
        Token.depthAfter_append, hdepth]
      rfl
    obtain ⟨m, -, hrefused⟩ := exists_error_of_depthAfter hlost
    constructor
    · intro h
      simp [hrefused] at h
    · rintro ⟨output, pending, hleads, -⟩
      have hopen := depthAfter_of_readAll hleads.read
      rw [Token.depthAfter_writeOut, hdepth] at hopen
      cases hopen
  | some m =>
    have hboth : Token.depthAfter 0 (before ++ ts) = some m := by
      rw [Token.depthAfter_append, hdepth]
      exact hts.depthAfter_eq m
    have hwritten : Token.depthAfter 0 (writeOut before ++ writeOut ts) = some m := by
      rw [← Token.writeOut_append_of_awaited hbefore, Token.depthAfter_writeOut, hboth]
    have hfilled (s : State) (h : readAll {} (writeOut before ++ writeOut ts) = .ok s) :
        ∃ output pending, s = .filled output pending := by
      obtain ⟨s₁, hread, h⟩ := readAll_append_eq_ok_iff.1 h
      obtain ⟨output, pending, rfl⟩ := exists_ready_of_readAll_writeOut hbefore hread
      obtain ⟨output', pending', hend, -⟩ := htail output pending
      exact ⟨output', pending', Except.ok.inj (h.symm.trans hend)⟩
    rw [Token.toPlain_of_depthAfter hboth, Token.writeOut_append_of_awaited hbefore,
      ofInfix_append_closings_eq_ok_iff hwritten hfilled]
    constructor
    · rintro ⟨output', pending', h, hsat', rfl⟩
      obtain ⟨s₁, hread, h⟩ := readAll_append_eq_ok_iff.1 h
      obtain ⟨output, pending, rfl⟩ := exists_ready_of_readAll_writeOut hbefore hread
      obtain ⟨output₂, pending₂, hend, hsat, hlisting⟩ := htail output pending
      obtain ⟨rfl, rfl, -⟩ := State.mk.inj (Except.ok.inj (h.symm.trans hend))
      exact ⟨output, pending, ⟨hread, hsat.1 hsat'⟩, hlisting⟩
    · rintro ⟨output, pending, hleads, rfl⟩
      obtain ⟨output', pending', hend, hsat, hlisting⟩ := htail output pending
      exact ⟨output', pending', (readAll_append_of_ok hleads.read _).trans hend,
        hsat.2 hleads.saturated, hlisting.symm⟩

/-- A line that ends with an operand is accepted exactly where the operand is led to. -/
theorem exists_ofInfix_toPlain_append_iff (hts : Matched ts) (htail : EndsAs (writeOut ts) tail) :
    (∃ e, Expr.ofInfix (toPlain (before ++ ts)) = .ok e) ↔
      ∃ output pending, LeadsTo before output pending := by
  have hlisting := ofInfix_toPlain_append_eq_ok_iff hbefore hts htail
  constructor
  · rintro ⟨e, he⟩
    obtain ⟨output, pending, hleads, -⟩ := (hlisting _).1 (Expr.ofInfix_eq_ok_iff_listing.1 he).1
    exact ⟨output, pending, hleads⟩
  · rintro ⟨output, pending, hleads⟩
    obtain ⟨e, he, -⟩ := derives_of_ofInfix ((hlisting _).2 ⟨output, pending, hleads, rfl⟩)
    exact ⟨e, Expr.ofInfix_eq_ok_iff.2 he⟩

/-- A line is refused if what stands where an operand is awaited cannot be read. -/
theorem ofInfix_toPlain_append_ne_ok
    (h : ∀ output pending s, readAll (.ready output pending) (writeOut ts) ≠ .ok s) (e : Expr) :
    Expr.ofInfix (toPlain (before ++ ts)) ≠ .ok e := by
  intro he
  obtain ⟨s, hread, -⟩ :=
    bind_eq_ok_iff.1 (ofInfix_eq_ok_iff_bind.1 (Expr.ofInfix_eq_ok_iff_listing.1 he).1)
  rw [Token.toPlain_eq, Token.writeOut_append_of_awaited hbefore, List.append_assoc] at hread
  obtain ⟨s₁, hfirst, hrest⟩ := readAll_append_eq_ok_iff.1 hread
  obtain ⟨output, pending, rfl⟩ := exists_ready_of_readAll_writeOut hbefore hfirst
  obtain ⟨s₂, hread, -⟩ := readAll_append_eq_ok_iff.1 hrest
  exact h output pending s₂ hread

/-- Two operands are parsed alike at the end of a line exactly if their tails are spelled alike
wherever they are led to. -/
theorem parseAlike_toPlain_append_iff (hts : Matched ts) (htail : EndsAs (writeOut ts) tail)
    (hus : Matched us) (htail' : EndsAs (writeOut us) tail') :
    ParseAlike (toPlain (before ++ ts)) (toPlain (before ++ us)) ↔
      ∀ output pending, LeadsTo before output pending →
        (tail pending).flatMap Token.spelled = (tail' pending).flatMap Token.spelled := by
  have hlisting := ofInfix_toPlain_append_eq_ok_iff hbefore hts htail
  have hlisting' := ofInfix_toPlain_append_eq_ok_iff hbefore hus htail'
  have haccepted := exists_ofInfix_toPlain_append_iff hbefore hts htail
  have haccepted' := exists_ofInfix_toPlain_append_iff hbefore hus htail'
  have hspelled {e e' : Expr} (he : Expr.ofInfix (toPlain (before ++ ts)) = .ok e)
      (he' : Expr.ofInfix (toPlain (before ++ us)) = .ok e') {output : List Token}
      {pending : List Pending} (hleads : LeadsTo before output pending) :
      e.spelled = e'.spelled ↔
        (tail pending).flatMap Token.spelled = (tail' pending).flatMap Token.spelled := by
    obtain ⟨h, hfits⟩ := Expr.ofInfix_eq_ok_iff_listing.1 he
    obtain ⟨h', hfits'⟩ := Expr.ofInfix_eq_ok_iff_listing.1 he'
    have heq := Except.ok.inj (h.symm.trans ((hlisting _).2 ⟨output, pending, hleads, rfl⟩))
    have heq' := Except.ok.inj (h'.symm.trans ((hlisting' _).2 ⟨output, pending, hleads, rfl⟩))
    rw [Expr.spelled_eq_iff hfits hfits', heq, heq', List.flatMap_append, List.flatMap_append,
      List.append_cancel_left_eq]
  constructor
  · rintro ⟨-, heq⟩ output pending hleads
    obtain ⟨e, he⟩ := haccepted.2 ⟨output, pending, hleads⟩
    obtain ⟨e', he'⟩ := haccepted'.2 ⟨output, pending, hleads⟩
    exact (hspelled he he' hleads).1 (heq e e' he he')
  · intro h
    refine ⟨haccepted.trans haccepted'.symm, fun e e' he he' => ?_⟩
    obtain ⟨output, pending, hleads⟩ := haccepted.1 ⟨e, he⟩
    exact (hspelled he he' hleads).2 (h output pending hleads)

end

end Postfix

/-! ## What is typed behind the number -/

/-- A key typed behind a number that applies to it; the power sign with a digit. -/
inductive Follower where
  | power (k : Fin 10)
  | factorial
  | percent

namespace Follower

/-- The entries of the keys. -/
def entries : Follower → List Entry
  | power k => [.operator .raise, .digit k]
  | factorial => [.factorialMark]
  | percent => [.percent]

/-- The tokens of the keys. -/
def tokens (f : Follower) : List Token := lex (Entry.sourceAll f.entries)

/-- The postfix tokens behind a literal that the keys apply to. -/
def operation : Follower → List Token
  | power k => [Token.ofNumeral [Decimal.digitChar k], .operator .raise]
  | factorial => [.function .factorial]
  | percent => [.number 100, .operator .divide]

/-- A power sign and a digit are two tokens, the second one a literal. -/
theorem exists_tokens_power (k : Fin 10) : ∃ w, (power k).tokens = [.operator .raise, .number w] ∧
    (power k).operation = [.number w, .operator .raise] := by
  have all : ∀ k : Fin 10, (Token.ofNumeral [Decimal.digitChar k]).isNumber = true := by
    decide +kernel
  have hdigit : Token.inNumeral (Decimal.digitChar k) = true :=
    Token.inNumeral_iff.2 (.inl (Decimal.isDigit_digitChar k.isLt))
  have hraise (cs : List Char) :
      Token.lexFrom .nothing ('^' :: cs) = .operator .raise :: Token.lexFrom .nothing cs := rfl
  have htokens : (power k).tokens =
      [.operator .raise, Token.ofNumeral [Decimal.digitChar k]] := by
    have hsource : (Entry.sourceAll (power k).entries).toList = ['^', Decimal.digitChar k] := by
      simp [entries, Entry.sourceAll, Entry.source, Operator.sign]
    rw [tokens, lex, hsource, hraise,
      Token.lexFrom_nothing_numeral (by simp) (List.forall_mem_singleton.2 hdigit)]
  have hk := all k
  rw [htokens, operation]
  cases hw : Token.ofNumeral [Decimal.digitChar k] with
  | number w => exact ⟨w, rfl, rfl⟩
  | _ => simp [hw, Token.isNumber] at hk

/-- The key for factorials gives their mark. -/
theorem tokens_factorial : factorial.tokens = [.factorialMark] := rfl

/-- The key for percentages gives the percent sign. -/
theorem tokens_percent : percent.tokens = [.percent] := rfl

/-- The keys behind a number are no brackets. -/
theorem matched_tokens (f : Follower) : Matched f.tokens := by
  cases f with
  | power k =>
    obtain ⟨w, htokens, -⟩ := exists_tokens_power k
    rw [htokens]
    rfl
  | factorial => rfl
  | percent => rfl

/-- No negation stands behind the literal that the keys apply to. -/
theorem exists_operation_spelled (f : Follower) :
    ∃ t ts, f.operation.flatMap Token.spelled = t :: ts ∧ t ≠ .negate := by
  cases f with
  | power k =>
    obtain ⟨w, -, hoperation⟩ := exists_tokens_power k
    rw [hoperation, List.flatMap_cons, Token.spelled]
    split <;> exact ⟨_, _, rfl, by simp⟩
  | factorial => exact ⟨_, _, rfl, by simp⟩
  | percent =>
    have hhundred : isNegative 100 = false := by decide +kernel
    exact ⟨.number 100, [.operator .divide], by simp [operation, Token.spelled, hhundred], by simp⟩

end Follower

/-! ## The tails of the operands -/

namespace Postfix

open Follower (exists_tokens_power)

/-- A number below zero, with its magnitude in brackets behind a minus sign, before other tokens. -/
def bracketed (a : Float) (ts : List Token) : List Token :=
  .opening :: .operator .subtract :: .number a :: .closing :: ts

/-- The brackets of a number match. -/
theorem matched_bracketed {ts : List Token} (h : Matched ts) (a : Float) :
    Matched (bracketed a ts) := h

/-- A literal is no bracket. -/
theorem matched_number_cons {ts : List Token} (h : Matched ts) (v : Float) :
    Matched (.number v :: ts) :=
  h.cons (by simp) (by simp)

/-- A literal is taken as a whole. -/
theorem endsAs_literal (v : Float) (f : Follower) :
    EndsAs (writeOut (.number v :: f.tokens)) fun pending =>
      .number v :: (f.operation ++ unwound pending) := by
  intro output pending
  cases f with
  | power k =>
    obtain ⟨w, htokens, hoperation⟩ := exists_tokens_power k
    have hwritten : writeOut [.number v, .operator .raise, .number w] =
        [.number v, .operator .raise, .number w] := rfl
    refine ⟨.number w :: .number v :: output, .operator .raise :: pending, ?_, ?_, ?_⟩
    · rw [htokens, hwritten, readAll_cons_of_ok (State.step_ready_number output pending v),
        readAll_cons_of_ok (State.step_filled_raise _ _)]
      rfl
    · exact saturated_cons_of_isBracket rfl pending
    · rw [hoperation]
      simp [unwound, Pending.token]
  | factorial =>
    have hwritten : writeOut [.number v, .factorialMark] = Token.callOne .factorial v := rfl
    have hclosing := @State.step_filled_closing_call (.number v :: output) [] (by simp) .factorial 0
      pending
    refine ⟨.function .factorial :: .number v :: output, pending, ?_, Iff.rfl, ?_⟩
    · rw [Follower.tokens_factorial, hwritten, Token.callOne, State.readAll_call,
        readAll_cons_of_ok (State.step_ready_number _ _ v), readAll_singleton]
      exact hclosing
    · simp [Follower.operation]
  | percent =>
    have hwritten : writeOut [.number v, .percent] = Token.hundredth v := rfl
    have hdivide : (State.filled (.number v :: output) (.bracket none 0 :: pending)).step
        (.operator .divide) = .ok (.ready (.number v :: output)
          (.operator .divide :: .bracket none 0 :: pending)) := rfl
    have hclosing := @State.step_filled_closing_bracket (.number 100 :: .number v :: output)
      [.operator .divide] (by simp [Pending.isBracket]) 0 pending
    refine ⟨.operator .divide :: .number 100 :: .number v :: output, pending, ?_, Iff.rfl, ?_⟩
    · rw [Follower.tokens_percent, hwritten, Token.hundredth,
        readAll_cons_of_ok (State.step_ready_opening output pending),
        readAll_cons_of_ok (State.step_ready_number _ _ v), readAll_cons_of_ok hdivide,
        readAll_cons_of_ok (State.step_ready_number _ _ 100), readAll_singleton]
      exact hclosing
    · simp [Follower.operation]

/-- A minus sign before an operand waits on the stack. -/
theorem EndsAs.minus {ts : List Token} {tail : List Pending → List Token} (h : EndsAs ts tail) :
    EndsAs (.operator .subtract :: ts) fun pending => tail (.negation :: pending) := by
  intro output pending
  obtain ⟨output', pending', hread, hsat, hlisting⟩ := h output (.negation :: pending)
  rw [readAll_cons_of_ok (State.step_ready_subtract output pending)]
  exact ⟨output', pending', hread, hsat.trans (saturated_cons_of_isBracket rfl pending), hlisting⟩

/-- A power takes the number in its brackets as a whole. -/
theorem endsAs_bracketed_power (a : Float) (k : Fin 10) :
    EndsAs (writeOut (bracketed a (Follower.power k).tokens)) fun pending =>
      .number a :: .negate :: ((Follower.power k).operation ++ unwound pending) := by
  intro output pending
  obtain ⟨w, htokens, hoperation⟩ := exists_tokens_power k
  have hwritten : writeOut (bracketed a [.operator .raise, .number w]) =
      bracketed a [.operator .raise, .number w] := rfl
  refine ⟨.number w :: .negate :: .number a :: output, .operator .raise :: pending, ?_, ?_, ?_⟩
  · rw [htokens, hwritten]
    refine (readAll_bracketed a output pending _).trans ?_
    rw [readAll_cons_of_ok (State.step_filled_raise _ _)]
    rfl
  · exact saturated_cons_of_isBracket rfl pending
  · rw [hoperation]
    simp [unwound, Pending.token]

/-- A percent sign divides what waits on the stack together with the number in its brackets. -/
theorem endsAs_bracketed_percent (a : Float) :
    EndsAs (writeOut (bracketed a Follower.percent.tokens)) fun pending =>
      .number a :: .negate :: ((pending.takeWhile (Pending.precedes .divide)).map Pending.token ++
        (Follower.percent.operation ++
          unwound (pending.dropWhile (Pending.precedes .divide)))) := by
  intro output pending
  obtain ⟨ops, rest, rfl, hops, hrest⟩ := exists_append_of_stops (Pending.precedes .divide) pending
  obtain ⟨htake, hdrop⟩ := takeWhile_append_of_stops hops hrest
  have hbrackets : ∀ x ∈ ops, x.isBracket = false := fun x hx =>
    Pending.isBracket_of_precedes (hops x hx)
  have hwritten : writeOut (bracketed a [.percent]) =
      bracketed a [.operator .divide, .number 100] := rfl
  refine ⟨.number 100 :: released ops (.negate :: .number a :: output), .operator .divide :: rest,
    ?_, ?_, ?_⟩
  · rw [Follower.tokens_percent, hwritten]
    refine (readAll_bracketed a output (ops ++ rest) _).trans ?_
    rw [readAll_cons_of_ok (State.step_filled_operator _ hops hrest)]
    rfl
  · rw [saturated_append, and_iff_right (saturated_of_isBracket hbrackets)]
    exact saturated_cons_of_isBracket rfl rest
  · simp only [htake, hdrop]
    simp [Follower.operation, released, unwound, Pending.token]

/-- A factorial mark is refused behind the brackets of a number. -/
theorem readAll_bracketed_factorial (a : Float) (output : List Token) (pending : List Pending) :
    readAll (.ready output pending) (writeOut (bracketed a Follower.factorial.tokens)) =
      .error (.strayMark .factorialMark) := by
  have hwritten : writeOut (bracketed a [.factorialMark]) =
      bracketed a [.factorialMark] := rfl
  rw [Follower.tokens_factorial, hwritten]
  exact readAll_bracketed a output pending [.factorialMark]

end Postfix

/-! ## The line -/

namespace Entry

open Postfix (bracketed)

variable {v : Float} (hv : v.isFinite = true)

include hv

/-- A number behind which keys are typed is read by itself, where an operand is awaited. -/
theorem lex_sourceAll_recalled {before : List Entry}
    (hbefore : before.getLast?.all opensOperand = true) (f : Follower) :
    lex (sourceAll (before ++ number v :: f.entries)) =
      lex (sourceAll before) ++ (lex (number v).source ++ f.tokens) := by
  have hfollower : ∃ c cs, (sourceAll f.entries).toList = c :: cs ∧ Token.Cuts c := by
    cases f with
    | power k =>
      exact ⟨'^', [Decimal.digitChar k], by simp [Follower.entries, sourceAll, source,
        Operator.sign], Token.cuts_of rfl rfl (by decide)⟩
    | factorial => exact ⟨'!', [], rfl, Token.cuts_of rfl rfl (by decide)⟩
    | percent => exact ⟨'%', [], rfl, Token.cuts_of rfl rfl (by decide)⟩
  obtain ⟨d, ds, hentries, hcuts⟩ := hfollower
  obtain ⟨⟨c, cs, hsource, -, hstar⟩, -⟩ := exists_cons (e := number v) hv
  have hc : c ≠ '*' := by
    intro h
    cases hstar h
  rw [sourceAll_append, lex, String.toList_append, toList_sourceAll_cons, hsource, List.cons_append,
    lexFrom_sourceAll_append hbefore hc, ← List.cons_append, ← hsource, hentries,
    Token.lexFrom_append_cons hcuts, ← hentries]
  rfl

/-- A number without a sign is read as a literal. -/
theorem lex_source_of_isNegative_eq_false (hsign : isNegative v = false) :
    lex (number v).source = [.number v] := by
  have hzero : ¬v < 0 := fun h => by simp [isNegative_of_lt_zero hv h] at hsign
  rw [Token.lex_source_number, if_neg hzero, Token.lexFrom_chars hv, hsign, if_neg (by simp),
    ← hsign, Binary64.ofField_field]

/-- A number below zero is read as its magnitude with a minus sign, in brackets. -/
theorem lex_source_of_lt_zero (hzero : v < 0) (ts : List Token) :
    lex (number v).source ++ ts = bracketed v.abs ts := by
  rw [Token.lex_source_number, if_pos hzero, Token.lexFrom_chars hv,
    if_pos (isNegative_of_lt_zero hv hzero), ← Binary64.abs_eq_ofField hv]
  rfl

/-- Minus zero is read as zero with a minus sign, without brackets. -/
theorem lex_source_of_not_lt_zero (hsign : isNegative v = true) (hzero : ¬v < 0) :
    lex (number v).source = [.operator .subtract, .number v.abs] := by
  rw [Token.lex_source_number, if_neg hzero, Token.lexFrom_chars hv, if_pos hsign,
    ← Binary64.abs_eq_ofField hv]

end Entry

/-! ## One operand -/

/-- The keys behind a number below zero in brackets apply to the number as one operand. -/
def Follower.TakesBracket (before : List Entry) : Follower → Prop
  | power _ => True
  | factorial => False
  | percent => Entry.beginsProduct before.reverse = true

section

open Postfix

variable {v : Float} (hv : v.isFinite = true)

include hv

/-- The magnitude of a number has no sign. -/
theorem isNegative_abs : isNegative v.abs = false := by
  rw [Binary64.abs_eq_ofField hv]
  exact Binary64.isNegative_ofField (Nat.le_of_lt ((Binary64.isFinite_iff v).1 hv)) false

/-- The magnitude of a number is spelled as it is. -/
theorem flatMap_spelled_abs (ts : List Token) :
    (.number v.abs :: ts).flatMap Token.spelled = .number v.abs :: ts.flatMap Token.spelled := by
  simp [Token.spelled, isNegative_abs hv]

variable (hsign : isNegative v = true)

include hsign

omit hv in
/-- A literal with a sign is spelled as its magnitude and a negation. -/
theorem flatMap_spelled_literal (ts : List Token) :
    (.number v :: ts).flatMap Token.spelled =
      .number v.abs :: .negate :: ts.flatMap Token.spelled := by
  simp [Token.spelled, hsign]

variable {before : List Token} (hbefore : awaitedAfter true before = true)

include hbefore

/-- A power takes a number below zero as it takes the literal. -/
theorem parseAlike_power (k : Fin 10) :
    ParseAlike (toPlain (before ++ bracketed v.abs (Follower.power k).tokens))
      (toPlain (before ++ .number v :: (Follower.power k).tokens)) := by
  have hmatched := (Follower.power k).matched_tokens
  have htails := parseAlike_toPlain_append_iff hbefore (matched_bracketed hmatched v.abs)
    (endsAs_bracketed_power v.abs k) (matched_number_cons hmatched v) (endsAs_literal v (.power k))
  refine htails.2 fun output pending _ => ?_
  rw [flatMap_spelled_abs hv, flatMap_spelled_literal hsign]
  rfl

omit hv hsign in
/-- A factorial mark is refused behind a number below zero, so a line that has a tree with the
literal is none like it. -/
theorem parseAlike_factorial_iff :
    ParseAlike (toPlain (before ++ bracketed v.abs Follower.factorial.tokens))
        (toPlain (before ++ .number v :: Follower.factorial.tokens)) ↔
      ¬∃ output pending, LeadsTo before output pending := by
  have hrefused := ofInfix_toPlain_append_ne_ok hbefore fun output pending s h => by
    rw [readAll_bracketed_factorial v.abs output pending] at h
    cases h
  rw [← exists_ofInfix_toPlain_append_iff hbefore
    (matched_number_cons Follower.factorial.matched_tokens v) (endsAs_literal v .factorial)]
  constructor
  · rintro ⟨hiff, -⟩ hliteral
    obtain ⟨e, he⟩ := hiff.2 hliteral
    exact hrefused e he
  · intro hnone
    exact ⟨iff_of_false (fun ⟨e, he⟩ => hrefused e he) hnone, fun e _ he => absurd he (hrefused e)⟩

/-- A percent sign takes a number below zero as it takes the literal exactly if a division releases
nothing from the stack before the number. -/
theorem parseAlike_percent_iff :
    ParseAlike (toPlain (before ++ bracketed v.abs Follower.percent.tokens))
        (toPlain (before ++ .number v :: Follower.percent.tokens)) ↔
      ∀ output pending, LeadsTo before output pending →
        Stops (Pending.precedes .divide) pending := by
  have hmatched := Follower.percent.matched_tokens
  have hhundred : isNegative 100 = false := by decide +kernel
  refine (parseAlike_toPlain_append_iff hbefore (matched_bracketed hmatched v.abs)
    (endsAs_bracketed_percent v.abs) (matched_number_cons hmatched v)
    (endsAs_literal v .percent)).trans ?_
  refine forall_congr' fun output => forall_congr' fun pending => imp_congr_right fun _ => ?_
  rw [flatMap_spelled_abs hv, flatMap_spelled_literal hsign]
  cases pending with
  | nil => exact iff_of_true rfl (stops_nil _)
  | cons x pending =>
    rw [stops_cons]
    cases hx : Pending.precedes .divide x with
    | false => simp [hx, Token.spelled]
    | true => cases x <;> simp [hx, Follower.operation, Token.spelled, Pending.token, hhundred]

/-- A number that has a sign but no brackets is read as zero, and the keys apply to that before the
sign does. -/
theorem parseAlike_minus_iff (f : Follower) :
    ParseAlike (toPlain (before ++ .operator .subtract :: .number v.abs :: f.tokens))
        (toPlain (before ++ .number v :: f.tokens)) ↔
      ¬∃ output pending, LeadsTo before output pending := by
  have hminus : Matched (.operator .subtract :: .number v.abs :: f.tokens) :=
    (matched_number_cons f.matched_tokens v.abs).cons (by simp) (by simp)
  have htail : EndsAs (writeOut (.operator .subtract :: .number v.abs :: f.tokens)) fun pending =>
      .number v.abs :: (f.operation ++ unwound (.negation :: pending)) := by
    rw [Token.writeOut_operator]
    exact (endsAs_literal v.abs f).minus
  obtain ⟨t, ts, hoperation, ht⟩ := f.exists_operation_spelled
  refine (parseAlike_toPlain_append_iff hbefore hminus htail
    (matched_number_cons f.matched_tokens v) (endsAs_literal v f)).trans ?_
  have hne (pending : List Pending) :
      (Token.number v.abs :: (f.operation ++ unwound (.negation :: pending))).flatMap
          Token.spelled ≠
        (Token.number v :: (f.operation ++ unwound pending)).flatMap Token.spelled := by
    rw [flatMap_spelled_abs hv, flatMap_spelled_literal hsign, List.flatMap_append, hoperation]
    intro heq
    exact ht (List.cons.inj (List.cons.inj heq).2).1
  constructor
  · rintro h ⟨output, pending, hleads⟩
    exact hne pending (h output pending hleads)
  · intro hnone output pending hleads
    exact absurd ⟨output, pending, hleads⟩ hnone

end

/--
Behind entries that await an operand, or at the start, a recalled number with a power of one digit,
a factorial mark or a percent sign behind it is accepted as the literal in its place would be, and
has the same tree, if and only if it has no sign, or the literal is refused there, or it is below
zero and its brackets serve: before a power sign, and before a percent sign if the number begins a
product. So a factorial mark behind a number below zero is refused, a percent sign divides the
product that the number stands in, and all three apply to minus zero before its sign does.
-/
theorem Entry.recalled_number_parses_as_literal_iff {before : List Entry}
    (hbefore : before.getLast?.all Entry.opensOperand = true) {v : Float}
    (hv : v.isFinite = true) (f : Follower) (mode : AngleMode) :
    ParseAlike
        (prepare mode (lex (Entry.sourceAll (before ++ .number v :: f.entries))))
        (prepare mode (lex (Entry.sourceAll before) ++
          .number v :: lex (Entry.sourceAll f.entries))) ↔
      isNegative v = false ∨
        (¬∃ e, Expr.ofInfix (prepare mode (lex (Entry.sourceAll before) ++
          .number v :: lex (Entry.sourceAll f.entries))) = .ok e) ∨
        v < 0 ∧ f.TakesBracket before := by
  have hawaited : awaitedAfter true (lex (Entry.sourceAll before)) = true :=
    (Entry.awaitedAfter_lex_sourceAll before).trans hbefore
  have haccepted := Postfix.exists_ofInfix_toPlain_append_iff hawaited
    (Postfix.matched_number_cons f.matched_tokens v) (Postfix.endsAs_literal v f)
  rw [parseAlike_prepare_iff, exists_ofInfix_prepare_iff, ← Follower.tokens, haccepted,
    Entry.lex_sourceAll_recalled hv hbefore f]
  cases hsign : isNegative v with
  | false =>
    rw [Entry.lex_source_of_isNegative_eq_false hv hsign]
    exact iff_of_true (.refl _) (.inl rfl)
  | true =>
    simp only [Bool.true_eq_false, false_or]
    by_cases hzero : v < 0
    · rw [Entry.lex_source_of_lt_zero hv hzero]
      cases f with
      | power k => exact iff_of_true (parseAlike_power hv hsign hawaited k) (.inr ⟨hzero, trivial⟩)
      | factorial =>
        rw [parseAlike_factorial_iff hawaited, Follower.TakesBracket, and_false, or_false]
      | percent =>
        have hstops {output : List Token} {pending : List Postfix.Pending}
            (h : Postfix.LeadsTo (lex (Entry.sourceAll before)) output pending) :=
          Entry.stops_divide_iff hbefore h.read
        rw [parseAlike_percent_iff hv hsign hawaited, Follower.TakesBracket]
        constructor
        · intro h
          by_cases hleads :
              ∃ output pending, Postfix.LeadsTo (lex (Entry.sourceAll before)) output pending
          · obtain ⟨output, pending, hleads⟩ := hleads
            exact .inr ⟨hzero, (hstops hleads).1 (h output pending hleads)⟩
          · exact .inl hleads
        · rintro (hnone | ⟨-, hbegins⟩) output pending hleads
          · exact absurd ⟨output, pending, hleads⟩ hnone
          · exact (hstops hleads).2 hbegins
    · rw [Entry.lex_source_of_not_lt_zero hv hsign hzero]
      simpa [hzero] using parseAlike_minus_iff hv hsign hawaited f

/-- Behind a division a power takes a recalled number below zero as a whole. -/
theorem Entry.recalled_number_parses_as_literal_in_quotient :
    let before := [Entry.digit 6, .operator .divide]
    let f := Follower.power 2
    before.getLast?.all Entry.opensOperand = true ∧ (-3 : Float).isFinite = true ∧
      ParseAlike
        (prepare .degrees (lex (Entry.sourceAll (before ++ .number (-3) :: f.entries))))
        (prepare .degrees (lex (Entry.sourceAll before) ++
          .number (-3) :: lex (Entry.sourceAll f.entries))) := by
  intro before f
  have hbefore : before.getLast?.all Entry.opensOperand = true := rfl
  have hfinite : (-3 : Float).isFinite = true := by decide +kernel
  have hzero : (-3 : Float) < 0 := by decide +kernel
  exact ⟨hbefore, hfinite, (Entry.recalled_number_parses_as_literal_iff hbefore hfinite f
    .degrees).2 (.inr (.inr ⟨hzero, trivial⟩))⟩

/-- Not every recalled number parses as the literal in its place: the factorial of minus three is a
call, and the line of the recalled number is refused. -/
theorem Entry.recalled_number_parses_as_literal_false :
    ¬∀ (before : List Entry) (v : Float) (f : Follower) (mode : AngleMode),
      before.getLast?.all Entry.opensOperand = true → v.isFinite = true →
        ParseAlike
          (prepare mode (lex (Entry.sourceAll (before ++ .number v :: f.entries))))
          (prepare mode (lex (Entry.sourceAll before) ++
            .number v :: lex (Entry.sourceAll f.entries))) := by
  intro h
  have halike := h [] (-3) .factorial .radians rfl (by decide +kernel)
  have hliteral : Expr.ofInfix (prepare .radians (lex (Entry.sourceAll []) ++
      .number (-3) :: lex (Entry.sourceAll Follower.factorial.entries))) =
        .ok (.call .factorial [.number (-3)]) := rfl
  have hline : (Expr.ofInfix (prepare .radians (lex (Entry.sourceAll
      ([] ++ .number (-3) :: Follower.factorial.entries))))).isOk = false := by decide +kernel
  obtain ⟨e, he⟩ := halike.accepted_iff.2 ⟨_, hliteral⟩
  rw [he] at hline
  cases hline

end SciCalc
