import SciCalc.Proofs.Nesting
import SciCalc.Proofs.Parsing

/-!
# Reading inside an open bracket

Tokens that close no bracket from outside are read inside an open bracket exactly as they are read
alone: what waits below the bracket and what is written already is carried along untouched. So
matching tokens in brackets are an operand exactly when they are an expression, and the brackets
add nothing to the postfix form.
-/

set_option autoImplicit false

namespace SciCalc.Postfix

open Token (depthAfter Matched)

namespace State

/-- The state put onto more that waits and more that is written. -/
def onto (output : List Token) (pending : List Pending) (s : State) : State :=
  { s with output := s.output ++ output, pending := s.pending ++ pending }

/-- How many brackets are open. -/
def depth (s : State) : Nat := s.pending.countP Pending.isBracket

end State

/-! ## One step -/

/-- An innermost bracket exists exactly where a bracket is open. -/
theorem innermost?_eq_none_iff (s : State) : s.innermost? = none ↔ s.depth = 0 := by
  simp only [State.innermost?, State.depth, List.findSome?_eq_none_iff, List.countP_eq_zero]
  refine forall_congr' fun x => forall_congr' fun _ => ?_
  cases x <;> simp [Pending.isBracket]

/-- Below an open bracket that bracket is the innermost one if no other is open. -/
theorem innermost?_onto (output : List Token) (commas : Nat) (below : List Pending) (s : State) :
    (s.onto output (.bracket none commas :: below)).innermost? =
      s.innermost?.or (some (none, commas)) := by
  simp [State.innermost?, State.onto, List.findSome?_append]

/-- Behind an operand a state stays so on top of another stack. -/
theorem onto_filled (output : List Token) (below : List Pending) (written : List Token)
    (waiting : List Pending) :
    (State.filled written waiting).onto output below =
      .filled (written ++ output) (waiting ++ below) := rfl

section Filled

variable (output : List Token) (commas : Nat) (below : List Pending) (written : List Token)
  (waiting : List Pending)

/-- Below an open bracket an operator behind an operand does what it does alone. -/
theorem step_filled_operator_onto (op : Operator) :
    ((State.filled written waiting).onto output (.bracket none commas :: below)).step
        (.operator op) =
      ((State.filled written waiting).step (.operator op)).map
        (State.onto output (.bracket none commas :: below)) := by
  obtain ⟨ops, rest, rfl, hops, hrest⟩ := exists_append_of_stops (Pending.precedes op) waiting
  have hbelow : Stops (Pending.precedes op) (rest ++ .bracket none commas :: below) := by
    cases rest with
    | nil => exact stops_cons.2 rfl
    | cons x rest => exact stops_cons.2 (stops_cons.1 hrest)
  rw [State.step_filled_operator written hops hrest, onto_filled, List.append_assoc,
    State.step_filled_operator _ hops hbelow, released_append_output]
  rfl

/-- Below an open bracket a comma behind an operand does what it does alone. -/
theorem step_filled_comma_onto :
    ((State.filled written waiting).onto output (.bracket none commas :: below)).step .comma =
      ((State.filled written waiting).step .comma).map
        (State.onto output (.bracket none commas :: below)) := by
  have hinner := innermost?_onto output commas below (.filled written waiting)
  rcases hs : (State.filled written waiting).innermost? with _ | ⟨_ | f, k⟩
  · rw [State.step_filled_comma_eq_error (by simp [hs]), onto_filled,
      State.step_filled_comma_eq_error]
    · rfl
    · rw [← onto_filled, hinner, hs]
      simp
  · rw [State.step_filled_comma_eq_error (by simp [hs]), onto_filled,
      State.step_filled_comma_eq_error]
    · rfl
    · rw [← onto_filled, hinner, hs]
      simp
  · obtain ⟨ops, rest, hwaiting, hops⟩ := exists_of_innermost? hs
    simp only [State.filled] at hwaiting
    subst hwaiting
    rw [State.step_filled_comma written hops, onto_filled, List.append_assoc, List.cons_append,
      State.step_filled_comma _ hops, released_append_output]
    rfl

/-- Below an open bracket a closing bracket that has its own does what it does alone. -/
theorem step_filled_closing_onto (h : (State.filled written waiting).depth ≠ 0) :
    ((State.filled written waiting).onto output (.bracket none commas :: below)).step .closing =
      ((State.filled written waiting).step .closing).map
        (State.onto output (.bracket none commas :: below)) := by
  rcases hs : (State.filled written waiting).innermost? with _ | ⟨callee, k⟩
  · exact absurd ((innermost?_eq_none_iff _).1 hs) h
  obtain ⟨ops, rest, hwaiting, hops⟩ := exists_of_innermost? hs
  simp only [State.filled] at hwaiting
  subst hwaiting
  cases callee with
  | none =>
    rw [State.step_filled_closing_bracket written hops, onto_filled, List.append_assoc,
      List.cons_append, State.step_filled_closing_bracket _ hops, released_append_output]
    rfl
  | some f =>
    rw [State.step_filled_closing_call written hops, onto_filled, List.append_assoc,
      List.cons_append, State.step_filled_closing_call _ hops, released_append_output]
    split <;> rfl

end Filled

/-- Below an open bracket a token does what it does alone, unless it closes a missing bracket. -/
theorem step_onto (output : List Token) (commas : Nat) (below : List Pending) {s : State}
    {t : Token} (ht : t = .closing → s.depth ≠ 0) :
    (s.onto output (.bracket none commas :: below)).step t =
      (s.step t).map (State.onto output (.bracket none commas :: below)) := by
  obtain ⟨written, waiting, afterValue, awaiting⟩ := s
  cases awaiting with
  | some f =>
    by_cases h : t = .opening
    · cases afterValue <;> simp [State.step, State.onto, h, State.opening, Except.map]
    · simp [State.step, State.onto, h, Except.map]
  | none =>
    cases afterValue with
    | true =>
      cases t with
      | operator op => exact step_filled_operator_onto output commas below written waiting op
      | comma => exact step_filled_comma_onto output commas below written waiting
      | closing => exact step_filled_closing_onto output commas below written waiting (ht rfl)
      | _ => rfl
    | false =>
      have hinner := innermost?_onto output commas below ⟨written, waiting, false, none⟩
      cases t with
      | operator op => cases op <;> rfl
      | comma =>
        simp only [State.step, State.read, State.comma, State.onto] at hinner ⊢
        rw [hinner]
        rcases State.innermost? ⟨written, waiting, false, none⟩ with _ | ⟨_ | f, k⟩ <;> rfl
      | closing =>
        have hdepth := mt (innermost?_eq_none_iff _).1 (ht rfl)
        simp only [State.step, State.read, State.closing, State.onto] at hinner ⊢
        rw [hinner]
        rcases hs : State.innermost? ⟨written, waiting, false, none⟩ with _ | ⟨callee, k⟩
        · exact absurd hs hdepth
        · rfl
      | _ => rfl

/-! ## Runs -/

/-- An open bracket is counted. -/
theorem countP_isBracket_bracket (callee : Option MathFunction) (commas : Nat)
    (rest : List Pending) :
    (Pending.bracket callee commas :: rest).countP Pending.isBracket =
      rest.countP Pending.isBracket + 1 :=
  List.countP_cons_of_pos rfl

/-- Operators and negations are no open brackets. -/
theorem countP_isBracket_append {ops : List Pending} (hops : ∀ x ∈ ops, x.isBracket = false)
    (rest : List Pending) :
    (ops ++ rest).countP Pending.isBracket = rest.countP Pending.isBracket := by
  have hzero : ops.countP Pending.isBracket = 0 := by simpa using hops
  rw [List.countP_append, hzero, Nat.zero_add]

/-- A step counts the brackets that are open. -/
theorem depthAfter_step {s s' : State} {t : Token} (h : s.step t = .ok s') :
    depthAfter s.depth [t] = some s'.depth := by
  cases step_eq_ok_iff.1 h with
  | operand ht =>
    rcases ht with ⟨v, rfl⟩ | rfl | rfl <;>
      simp [depthAfter, State.depth, State.ready, State.filled]
  | function f output pending => simp [depthAfter, State.depth, State.ready, State.called]
  | bracket output pending =>
    simp [depthAfter, State.depth, State.ready, countP_isBracket_bracket]
  | call f output pending =>
    simp [depthAfter, State.depth, State.ready, State.called, countP_isBracket_bracket]
  | plus output pending => simp [depthAfter, State.depth, State.ready]
  | minus output pending => simp [depthAfter, State.depth, State.ready, Pending.isBracket]
  | operator output hops hrest =>
    have hcount := countP_isBracket_append fun x hx => Pending.isBracket_of_precedes (hops x hx)
    simp [depthAfter, State.depth, State.ready, State.filled, hcount, Pending.isBracket]
  | comma f commas output rest hops =>
    have hcount := countP_isBracket_append hops
    simp [depthAfter, State.depth, State.ready, State.filled, hcount, countP_isBracket_bracket]
  | closeBracket commas output rest hops =>
    have hcount := countP_isBracket_append hops
    simp [depthAfter, State.depth, State.filled, hcount, countP_isBracket_bracket]
  | closeCall output rest hops hlen =>
    have hcount := countP_isBracket_append hops
    simp [depthAfter, State.depth, State.filled, hcount, countP_isBracket_bracket]

/-- The brackets open behind tokens that are read are those the tokens leave open. -/
theorem depthAfter_readAll {s s' : State} {ts : List Token} (h : readAll s ts = .ok s') :
    depthAfter s.depth ts = some s'.depth := by
  induction ts generalizing s with
  | nil =>
    cases h
    rfl
  | cons t ts ih =>
    obtain ⟨s₁, hstep, h⟩ := readAll_cons_eq_ok_iff.1 h
    rw [← List.singleton_append, Token.depthAfter_append, depthAfter_step hstep]
    exact ih h

/-- From the start the brackets open are those the tokens leave open. -/
theorem depthAfter_of_readAll {s : State} {ts : List Token} (h : readAll {} ts = .ok s) :
    depthAfter 0 ts = some s.depth := depthAfter_readAll h

/-- Below an open bracket tokens that close no more than they open are read as they are alone. -/
theorem readAll_onto (output : List Token) (commas : Nat) (below : List Pending) {s : State}
    {ts : List Token} (h : depthAfter s.depth ts ≠ none) :
    readAll (s.onto output (.bracket none commas :: below)) ts =
      (readAll s ts).map (State.onto output (.bracket none commas :: below)) := by
  induction ts generalizing s with
  | nil => rfl
  | cons t ts ih =>
    have ht : t = .closing → s.depth ≠ 0 := by
      rintro rfl hdepth
      exact h (by rw [hdepth]; rfl)
    rw [readAll_cons, readAll_cons, step_onto output commas below ht]
    rcases hstep : s.step t with fault | s₁
    · rfl
    · refine ih ?_
      rwa [← List.singleton_append, Token.depthAfter_append, depthAfter_step hstep] at h

/-- Behind a bracket tokens that close no more than they open are read as from the start. -/
theorem readAll_ready_bracket (output : List Token) (pending : List Pending) {ts : List Token}
    (h : depthAfter 0 ts ≠ none) :
    readAll (.ready output (.bracket none 0 :: pending)) ts =
      (readAll {} ts).map (State.onto output (.bracket none 0 :: pending)) := by
  have hstart : depthAfter (State.depth {}) ts ≠ none := h
  exact readAll_onto output 0 pending hstart

/-! ## What is written -/

/-- A step writes behind what is written. -/
theorem output_of_step {s s' : State} {t : Token} (h : s.step t = .ok s') :
    ∃ written, s'.output = written ++ s.output := by
  cases step_eq_ok_iff.1 h with
  | @operand t _ _ _ => exact ⟨[t], rfl⟩
  | function f output pending => exact ⟨[], rfl⟩
  | bracket output pending => exact ⟨[], rfl⟩
  | call f output pending => exact ⟨[], rfl⟩
  | plus output pending => exact ⟨[], rfl⟩
  | minus output pending => exact ⟨[], rfl⟩
  | operator output _ _ => exact ⟨_, rfl⟩
  | comma f commas output rest _ => exact ⟨_, rfl⟩
  | closeBracket commas output rest _ => exact ⟨_, rfl⟩
  | @closeCall _ f _ output rest _ _ => exact ⟨.function f :: _, rfl⟩

/-- A run writes behind what is written. -/
theorem output_of_readAll {s s' : State} {ts : List Token} (h : readAll s ts = .ok s') :
    ∃ written, s'.output = written ++ s.output := by
  induction ts generalizing s with
  | nil =>
    cases h
    exact ⟨[], rfl⟩
  | cons t ts ih =>
    obtain ⟨s₁, hstep, h⟩ := readAll_cons_eq_ok_iff.1 h
    obtain ⟨first, hfirst⟩ := output_of_step hstep
    obtain ⟨written, hwritten⟩ := ih h
    exact ⟨written ++ first, by rw [hwritten, hfirst, List.append_assoc]⟩

/-- Before an operand a run that comes behind one writes a leaf first. -/
theorem leaf_of_readAll {s s' : State} {ts : List Token} (h : readAll s ts = .ok s')
    (hs : s.afterValue = false) (hs' : s'.afterValue = true) :
    ∃ leaf written, ((∃ v, leaf = .number v) ∨ leaf = .pi ∨ leaf = .answer) ∧
      s'.output = written ++ leaf :: s.output := by
  induction ts generalizing s with
  | nil =>
    cases h
    rw [hs] at hs'
    cases hs'
  | cons t ts ih =>
    obtain ⟨s₁, hstep, h⟩ := readAll_cons_eq_ok_iff.1 h
    cases step_eq_ok_iff.1 hstep with
    | @operand t output pending ht =>
      obtain ⟨written, hwritten⟩ := output_of_readAll h
      exact ⟨t, written, ht, hwritten⟩
    | function f output pending => exact ih (s := .called f output pending) h rfl
    | bracket output pending => exact ih (s := .ready output (.bracket none 0 :: pending)) h rfl
    | call f output pending => exact ih (s := .ready output (.bracket (some f) 0 :: pending)) h rfl
    | plus output pending => exact ih (s := .ready output pending) h rfl
    | minus output pending => exact ih (s := .ready output (.negation :: pending)) h rfl
    | operator output _ _ => cases hs
    | comma f commas output rest _ => cases hs
    | closeBracket commas output rest _ => cases hs
    | closeCall output rest _ _ => cases hs

end SciCalc.Postfix
