import SciCalc.Proofs.Closing
import SciCalc.Proofs.Unwinding

/-!
# The only completion

Missing closing brackets are counted, with no look at where brackets stand or which calls they
belong to. That is enough. Whatever the conversion accepts matches, so closing brackets that
complete tokens are as many as the tokens leave open, and where tokens leave brackets open their
number is the difference of the counts. Tokens whose brackets are out of order have no completion,
and neither have tokens that do not end with an operand or that hold a call without all its
arguments.
-/

set_option autoImplicit false

namespace SciCalc

open Token (closeBrackets depthAfter Matched missingClosings)

namespace Token

/-- Closing brackets behind tokens make them match exactly if they are as many as are open. -/
theorem matched_append_closings_iff {ts : List Token} {k : Nat} :
    Matched (ts ++ List.replicate k closing) ↔ depthAfter 0 ts = some k := by
  have hopening : (List.replicate k closing).count opening = 0 := List.count_eq_zero.2 (by simp)
  rw [Matched, depthAfter_append]
  constructor
  · intro h
    obtain ⟨m, hdepth, hclosings⟩ := Option.bind_eq_some_iff.1 h
    have hcount := count_of_depthAfter hclosings
    rw [hopening, List.count_replicate_self] at hcount
    rw [hdepth, show m = k by omega]
  · intro h
    rw [h]
    exact depthAfter_replicate_closing k

/-- The brackets that tokens leave open are closed. -/
theorem closeBrackets_of_depthAfter {ts : List Token} {k : Nat} (h : depthAfter 0 ts = some k) :
    closeBrackets ts = ts ++ List.replicate k closing := by
  rw [closeBrackets, missingClosings_of_depthAfter h]

/-- Closed brackets stay as they are. -/
theorem closeBrackets_closeBrackets (ts : List Token) :
    closeBrackets (closeBrackets ts) = closeBrackets ts := by
  rw [closeBrackets, missingClosings_closeBrackets]
  exact List.append_nil _

end Token

namespace Postfix

/-- The conversion comes to a postfix form. -/
def Accepts (ts : List Token) : Prop := ∃ listing, ofInfix ts = .ok listing

/-- Accepted tokens match. -/
theorem Accepts.matched {ts : List Token} (h : Accepts ts) : Matched ts := by
  obtain ⟨listing, h⟩ := h
  obtain ⟨e, he, -⟩ := derives_of_ofInfix h
  exact he.matched

/-- Tokens that closing brackets complete leave as many brackets open. -/
theorem Accepts.depthAfter {ts : List Token} {k : Nat}
    (h : Accepts (ts ++ List.replicate k Token.closing)) : depthAfter 0 ts = some k :=
  Token.matched_append_closings_iff.1 h.matched

/-- Closing brackets end the input well behind an operand only. -/
theorem exists_filled_of_finish_closings {s : State} {k : Nat} {listing : List Token}
    (h : (readAll s (List.replicate k Token.closing)).bind State.finish = .ok listing) :
    ∃ output pending, s = .filled output pending := by
  obtain ⟨s', hread, hfinish⟩ := bind_eq_ok_iff.1 h
  cases k with
  | zero =>
    obtain ⟨output, ops, rfl, -⟩ := State.finish_eq_ok_iff.1 hfinish
    cases hread
    exact ⟨output, ops, rfl⟩
  | succ k =>
    obtain ⟨s₁, hstep, -⟩ := readAll_cons_eq_ok_iff.1 hread
    obtain ⟨output, ops, callee, commas, rest, rfl, -⟩ := exists_filled_of_step_closing hstep
    exact ⟨output, _, rfl⟩

/--
Tokens are completed by closing brackets exactly if they are read to the end of an operand and every
call that is open there has its arguments.
-/
theorem exists_completion_iff {ts : List Token} :
    (∃ k, Accepts (ts ++ List.replicate k Token.closing)) ↔
      ∃ output pending, readAll {} ts = .ok (.filled output pending) ∧ Saturated pending := by
  constructor
  · rintro ⟨k, listing, h⟩
    have hdepth := Accepts.depthAfter ⟨listing, h⟩
    rw [ofInfix_eq_ok_iff_bind, finish_readAll_append] at h
    obtain ⟨s, hread, hfinish⟩ := bind_eq_ok_iff.1 h
    obtain ⟨output, pending, rfl⟩ := exists_filled_of_finish_closings hfinish
    have hk : pending.countP Pending.isBracket = k :=
      Option.some.inj ((depthAfter_of_readAll hread).symm.trans hdepth)
    rw [← hk] at hfinish
    exact ⟨output, pending, hread, ((finish_closings_eq_ok_iff output pending listing).1 hfinish).1⟩
  · rintro ⟨output, pending, hread, hcalls⟩
    refine ⟨pending.countP Pending.isBracket, output.reverse ++ unwound pending, ?_⟩
    rw [ofInfix_eq_ok_iff_bind, finish_readAll_append, hread]
    exact (finish_closings_eq_ok_iff output pending _).2 ⟨hcalls, rfl⟩

/--
The closing of brackets finds the completion of tokens wherever there is one, and there is never
more than one. It only puts closing brackets at the end, does nothing the second time, and leaves
accepted tokens as they are. There is a completion exactly if the tokens are read to the end of an
operand and every call that is open there has its arguments.
-/
theorem closeBrackets_is_only_completion (ts : List Token) :
    (∀ j k, Accepts (ts ++ List.replicate j Token.closing) →
        Accepts (ts ++ List.replicate k Token.closing) → j = k) ∧
      (∀ k, Accepts (ts ++ List.replicate k Token.closing) →
        closeBrackets ts = ts ++ List.replicate k Token.closing) ∧
      (Accepts (closeBrackets ts) ↔
        ∃ output pending, readAll {} ts = .ok (.filled output pending) ∧ Saturated pending) ∧
      (∃ k, closeBrackets ts = ts ++ List.replicate k Token.closing) ∧
      closeBrackets (closeBrackets ts) = closeBrackets ts ∧
      (Accepts ts → closeBrackets ts = ts) := by
  have hfinds (k : Nat) (h : Accepts (ts ++ List.replicate k Token.closing)) :
      closeBrackets ts = ts ++ List.replicate k Token.closing :=
    Token.closeBrackets_of_depthAfter h.depthAfter
  have hadds : ∃ k, closeBrackets ts = ts ++ List.replicate k Token.closing :=
    ⟨missingClosings ts, rfl⟩
  refine ⟨fun j k hj hk => ?_, hfinds, ?_, hadds, Token.closeBrackets_closeBrackets ts, fun h => ?_⟩
  · exact Option.some.inj (hj.depthAfter.symm.trans hk.depthAfter)
  · rw [← exists_completion_iff]
    constructor
    · intro h
      exact ⟨missingClosings ts, h⟩
    · rintro ⟨k, h⟩
      rwa [hfinds k h]
  · have hnone : Accepts (ts ++ List.replicate 0 Token.closing) := by simpa using h
    simpa using hfinds 0 hnone

/-- The two brackets that the call of a root and its argument leave open are closed. -/
theorem closeBrackets_is_only_completion_root :
    let ts : List Token := [.function .sqrt, .opening, .opening, .number 4]
    Accepts (ts ++ List.replicate 2 Token.closing) ∧
      closeBrackets ts = ts ++ List.replicate 2 Token.closing := by
  intro ts
  have h : Accepts (ts ++ List.replicate 2 Token.closing) :=
    ⟨[.number 4, .function .sqrt], by decide⟩
  exact ⟨h, (closeBrackets_is_only_completion ts).2.1 2 h⟩

/-- As many brackets close as open here, but the first one closes nothing. -/
example : closeBrackets [.number 1, .closing, .opening, .number 2] =
      [.number 1, .closing, .opening, .number 2] ∧
    ofInfix [.number 1, .closing, .opening, .number 2] = .error .surplusClosing := by decide

end Postfix

end SciCalc
