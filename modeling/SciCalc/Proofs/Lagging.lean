import SciCalc.Proofs.Framing
import SciCalc.Proofs.Unbracketing

/-!
# Reading one negation behind

The reader is run on tokens with and without the brackets around signed literals, side by side. It
is in the same state on both, or one negation behind without the brackets, until the next token or
the end releases it. Where a literal is taken from its sign, one run writes the negation behind the
literal and the other does not, and what is written stays.
-/

set_option autoImplicit false

namespace SciCalc

namespace Postfix

open Token (Unbracketed TakesLiteral LeavesSign)

/-- The second state is the first one, or it is one negation behind. -/
inductive Lags : State → State → Prop where
  | same (s : State) : Lags s s
  | negation (v : Float) (output : List Token) (pending : List Pending) :
      Lags (.filled (.negate :: .number v :: output) pending)
        (.filled (.number v :: output) (.negation :: pending))

variable {output : List Token} {pending : List Pending} {s s' d : State}

/-- A token that leaves a literal to its sign first releases the negation. -/
theorem step_of_lag {v : Float} {t : Token} (ht : t.leavesSign = true)
    (h : (State.filled (.negate :: .number v :: output) pending).step t = .ok s) :
    (State.filled (.number v :: output) (.negation :: pending)).step t = .ok s := by
  have hreleased (ops : List Pending) :
      released (.negation :: ops) (.number v :: output) =
        released ops (.negate :: .number v :: output) := released_append [.negation] ops _
  cases Step.of_step_filled h with
  | @operator op ops rest _ hops hrest =>
    have hnegation : Pending.precedes op .negation = true := by
      cases op <;> first | rfl | cases ht
    have hops : ∀ x ∈ .negation :: ops, x.precedes op = true := by
      simpa [hnegation] using hops
    have hstep := State.step_filled_operator (.number v :: output) hops hrest
    rwa [hreleased] at hstep
  | @comma ops f commas _ rest hops =>
    have hops : ∀ x ∈ .negation :: ops, x.isBracket = false := by
      simpa [Pending.isBracket] using hops
    have hstep := State.step_filled_comma (.number v :: output) hops f commas rest
    rwa [hreleased] at hstep
  | @closeBracket ops commas _ rest hops =>
    have hops : ∀ x ∈ .negation :: ops, x.isBracket = false := by
      simpa [Pending.isBracket] using hops
    have hstep := State.step_filled_closing_bracket (.number v :: output) hops commas rest
    rwa [hreleased] at hstep
  | @closeCall ops f commas _ rest hops harity =>
    have hops : ∀ x ∈ .negation :: ops, x.isBracket = false := by
      simpa [Pending.isBracket] using hops
    have hstep := State.step_filled_closing_call (.number v :: output) hops f commas rest
    rw [hreleased, if_pos harity] at hstep
    exact hstep

/-- The first token behind the literal releases the negation. -/
theorem Lags.step {t : Token} (h : Lags s d) (hnext : s ≠ d → t.leavesSign = true)
    (hstep : s.step t = .ok s') : d.step t = .ok s' := by
  cases h with
  | same => exact hstep
  | negation v output pending =>
    have hne : State.filled (.negate :: .number v :: output) pending ≠
        .filled (.number v :: output) (.negation :: pending) := by
      intro heq
      simp [State.filled] at heq
    exact step_of_lag (hnext hne) hstep

/-- Before an operand there is no negation to release. -/
theorem Lags.eq_of_ready (h : Lags (.ready output pending) d) : d = .ready output pending := by
  generalize hs : State.ready output pending = s at h
  cases h with
  | same => rfl
  | negation v output pending => cases hs

/-- Behind a token that awaits an operand the reader awaits one. -/
theorem Step.exists_ready {t : Token} (h : Step s t s') (ht : t.awaitsOperand = true) :
    ∃ output pending, s' = .ready output pending := by
  cases h with
  | operand ht' => rcases ht' with ⟨v, rfl⟩ | rfl | rfl <;> cases ht
  | function => cases ht
  | closeBracket => cases ht
  | closeCall => cases ht
  | _ => exact ⟨_, _, rfl⟩

/-- A signed literal in brackets is read with its negation. -/
theorem readAll_bracketed (v : Float) (output : List Token) (pending : List Pending)
    (ts : List Token) :
    readAll (.ready output pending)
        (.opening :: .operator .subtract :: .number v :: .closing :: ts) =
      readAll (.filled (.negate :: .number v :: output) pending) ts := by
  have hclosing := @State.step_filled_closing_bracket (.number v :: output) [.negation]
    (by simp [Pending.isBracket]) 0 pending
  rw [readAll_cons_of_ok (State.step_ready_opening output pending),
    readAll_cons_of_ok (State.step_ready_subtract _ _),
    readAll_cons_of_ok (State.step_ready_number _ _ v)]
  exact readAll_cons_of_ok hclosing ts

/-- A signed literal without brackets is read one negation behind. -/
theorem readAll_unbracketed (v : Float) (output : List Token) (pending : List Pending)
    (ts : List Token) :
    readAll (.ready output pending) (.operator .subtract :: .number v :: ts) =
      readAll (.filled (.number v :: output) (.negation :: pending)) ts := by
  rw [readAll_cons_of_ok (State.step_ready_subtract output pending),
    readAll_cons_of_ok (State.step_ready_number _ _ v)]

/-- What is read with the brackets is read without them, at most one negation behind. -/
theorem exists_readAll_of_unbracketed {awaited : Bool} {ts us : List Token}
    (h : Unbracketed false awaited ts us) {s d s' : State} (hlags : Lags s d)
    (hnext : s ≠ d → LeavesSign us)
    (hready : awaited = true → ∃ output pending, s = .ready output pending)
    (hread : readAll s ts = .ok s') : ∃ d', readAll d us = .ok d' ∧ Lags s' d' := by
  -- A run that is behind has a literal last, so the next token settles it: hence `hnext`.
  induction h generalizing s d with
  | nil awaited =>
    cases hread
    exact ⟨d, rfl, hlags⟩
  | taken v ts hset => cases hset
  | @keep awaited t ts us _ ih =>
    obtain ⟨s₁, hstep, hread⟩ := readAll_cons_eq_ok_iff.1 hread
    obtain ⟨d', hread', hlags'⟩ := ih (.same s₁) (fun hne => absurd rfl hne)
      (step_eq_ok_iff.1 hstep).exists_ready hread
    have hstep' := hlags.step (fun hne => hnext hne t rfl) hstep
    exact ⟨d', readAll_cons_eq_ok_iff.2 ⟨s₁, hstep', hread'⟩, hlags'⟩
  | @literal v ts us hhead _ ih =>
    obtain ⟨output, pending, rfl⟩ := hready rfl
    rw [readAll_bracketed] at hread
    rw [hlags.eq_of_ready, readAll_unbracketed]
    exact ih (.negation v output pending) (fun _ => hhead) (fun h => by cases h) hread

/-- The end releases the negation. -/
theorem Lags.finish {listing : List Token} (h : Lags s d) (hs : s.finish = .ok listing) :
    d.finish = .ok listing := by
  cases h with
  | same => exact hs
  | negation v output pending =>
    obtain ⟨output', ops, hstate, hops, rfl⟩ := State.finish_eq_ok_iff.1 hs
    obtain ⟨rfl, rfl⟩ : .negate :: .number v :: output = output' ∧ pending = ops := by
      simpa [State.filled] using hstate
    refine State.finish_eq_ok_iff.2 ⟨_, _, rfl, ?_, ?_⟩
    · simpa [Pending.isBracket] using hops
    · exact congrArg List.reverse (released_append [.negation] pending (.number v :: output)).symm

/-- The conversion answers the same without the brackets. -/
theorem ofInfix_of_unbracketed {ts us listing : List Token} (h : Unbracketed false true ts us)
    (hts : ofInfix ts = .ok listing) : ofInfix us = .ok listing := by
  obtain ⟨s, hread, hfinish⟩ := bind_eq_ok_iff.1 (ofInfix_eq_ok_iff_bind.1 hts)
  obtain ⟨d, hread', hlags⟩ := exists_readAll_of_unbracketed h (.same {})
    (fun hne => absurd rfl hne) (fun _ => ⟨[], [], rfl⟩) hread
  exact ofInfix_eq_ok_iff_bind.2 (bind_eq_ok_iff.2 ⟨d, hread', hlags.finish hfinish⟩)

/-! ## A literal that is taken -/

/-- Behind a literal that is taken something else than its negation is written. -/
theorem exists_output_of_takes {v : Float} {ts : List Token} (h : TakesLiteral v ts)
    (hread : readAll (.ready output pending) ts = .ok s) (hs : s.afterValue = true) :
    ∃ written t, t ≠ .negate ∧ s.output = written ++ t :: .number v :: output := by
  cases h with
  | @behind t ts hleaves hnumber =>
    rw [readAll_cons_of_ok (State.step_ready_number output pending v)] at hread
    obtain ⟨s₁, hstep, hread⟩ := readAll_cons_eq_ok_iff.1 hread
    cases t with
    | operator op =>
      cases op with
      | raise =>
        rw [State.step_filled_raise] at hstep
        cases hstep
        obtain ⟨leaf, written, hleaf, hwritten⟩ := leaf_of_readAll hread rfl hs
        refine ⟨written, leaf, ?_, hwritten⟩
        rcases hleaf with ⟨w, rfl⟩ | rfl | rfl <;> simp
      | _ => cases hleaves
    | number w => cases hnumber
    | percent => cases hstep
    | factorialMark => cases hstep
    | permutationMark => cases hstep
    | combinationMark => cases hstep
    | _ => cases hleaves
  | hundredth ts =>
    obtain ⟨s₁, hfirst, hread⟩ := (@readAll_append_eq_ok_iff _ _
      [.opening, .number v, .operator .divide, .number 100] (.closing :: ts)).1 hread
    cases hfirst
    obtain ⟨written, hwritten⟩ := output_of_readAll hread
    exact ⟨written, .number 100, by simp, hwritten⟩
  | one f ts =>
    obtain ⟨s₁, hfirst, hread⟩ := (@readAll_append_eq_ok_iff _ _
      [.function f, .opening, .number v] (.closing :: ts)).1 hread
    cases hfirst
    obtain ⟨s₂, hstep, hread⟩ := readAll_cons_eq_ok_iff.1 hread
    have hclosing := @State.step_filled_closing_call (.number v :: output) [] (by simp) f 0 pending
    have hstep := hclosing.symm.trans hstep
    split at hstep
    case isTrue =>
      cases hstep
      obtain ⟨written, hwritten⟩ := output_of_readAll hread
      exact ⟨written, .function f, by simp, hwritten⟩
    case isFalse => cases hstep
  | two f w ts =>
    obtain ⟨s₁, hfirst, hread⟩ := (@readAll_append_eq_ok_iff _ _
      [.function f, .opening, .number v, .comma, .number w] (.closing :: ts)).1 hread
    cases hfirst
    obtain ⟨written, hwritten⟩ := output_of_readAll hread
    exact ⟨written, .number w, by simp, hwritten⟩

/-- Where a literal is taken, what is written behind it differs. -/
theorem exists_outputs_of_unbracketed {awaited : Bool} {ts us : List Token}
    (h : Unbracketed true awaited ts us) {s d s' d' : State} (hlags : Lags s d)
    (hnext : s ≠ d → LeavesSign us)
    (hready : awaited = true → ∃ output pending, s = .ready output pending)
    (hread : readAll s ts = .ok s') (hread' : readAll d us = .ok d')
    (hd' : d'.afterValue = true) :
    ∃ v front t written written', t ≠ .negate ∧
      s'.output = written ++ .negate :: .number v :: front ∧
      d'.output = written' ++ t :: .number v :: front := by
  induction h generalizing s d with
  | nil awaited hset => cases hset
  | @keep awaited t ts us _ ih =>
    obtain ⟨s₁, hstep, hread⟩ := readAll_cons_eq_ok_iff.1 hread
    have hstep' := hlags.step (fun hne => hnext hne t rfl) hstep
    rw [readAll_cons_of_ok hstep'] at hread'
    exact ih (.same s₁) (fun hne => absurd rfl hne) (step_eq_ok_iff.1 hstep).exists_ready
      hread hread'
  | @literal v ts us hhead _ ih =>
    obtain ⟨output, pending, rfl⟩ := hready rfl
    rw [readAll_bracketed] at hread
    rw [hlags.eq_of_ready, readAll_unbracketed] at hread'
    exact ih (.negation v output pending) (fun _ => hhead) (fun h => by cases h) hread
      hread'
  | @taken v ts us _ htakes =>
    obtain ⟨output, pending, rfl⟩ := hready rfl
    rw [readAll_bracketed] at hread
    rw [hlags.eq_of_ready, readAll_cons_of_ok (State.step_ready_subtract output pending)] at hread'
    obtain ⟨written, hwritten⟩ := output_of_readAll hread
    obtain ⟨written', t, ht, hwritten'⟩ := exists_output_of_takes htakes hread' hd'
    exact ⟨v, output, t, written, written', ht, hwritten, hwritten'⟩

/-- Where a literal is taken, the conversion answers something else. -/
theorem ofInfix_ne_of_taken {ts us listing : List Token} (h : Unbracketed true true ts us)
    (hts : ofInfix ts = .ok listing) : ofInfix us ≠ .ok listing := by
  intro hus
  obtain ⟨output, ops, hread, -, rfl⟩ := ofInfix_eq_ok_iff_readAll.1 hts
  obtain ⟨output', ops', hread', -, hlisting⟩ := ofInfix_eq_ok_iff_readAll.1 hus
  obtain ⟨v, front, t, written, written', ht, hwritten, hwritten'⟩ :=
    exists_outputs_of_unbracketed h (.same {}) (fun hne => absurd rfl hne)
      (fun _ => ⟨[], [], rfl⟩) hread hread' rfl
  obtain rfl : output = written ++ .negate :: .number v :: front := hwritten
  obtain rfl : output' = written' ++ t :: .number v :: front := hwritten'
  rw [List.reverse_inj, released_append_output, released_append_output] at hlisting
  obtain ⟨-, hends⟩ := List.append_inj' hlisting (by simp)
  exact ht (List.cons.inj hends).1.symm

end Postfix

/-- Without the brackets the tokens have the same tree. -/
theorem Expr.ofInfix_of_unbracketed {ts us : List Token} {e : Expr}
    (h : Token.Unbracketed false true ts us) (hts : Expr.ofInfix ts = .ok e) :
    Expr.ofInfix us = .ok e := by
  obtain ⟨hlisting, hfits⟩ := Expr.ofInfix_eq_ok_iff_listing.1 hts
  exact Expr.ofInfix_eq_ok_iff_listing.2 ⟨Postfix.ofInfix_of_unbracketed h hlisting, hfits⟩

/-- Where a literal is taken from its sign, the tokens have another tree. -/
theorem Expr.ofInfix_ne_of_taken {ts us : List Token} {e : Expr}
    (h : Token.Unbracketed true true ts us) (hts : Expr.ofInfix ts = .ok e) :
    Expr.ofInfix us ≠ .ok e := by
  intro hus
  exact Postfix.ofInfix_ne_of_taken h (Expr.ofInfix_eq_ok_iff_listing.1 hts).1
    (Expr.ofInfix_eq_ok_iff_listing.1 hus).1

end SciCalc
