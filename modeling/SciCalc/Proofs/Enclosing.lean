import SciCalc.Proofs.Framing

/-!
# Brackets opened and closed

What stands under an open bracket stays there until the bracket is closed. So tokens in brackets,
or the call of a function, leave behind an operand and nothing else on the stack, and tokens in
brackets are read well exactly when they are an expression of their own.
-/

set_option autoImplicit false

namespace SciCalc.Postfix

open Token (depthAfter Matched enclosed)

/-! ## What stands under a bracket -/

/-- A bracket under operators is found behind them. -/
theorem exists_of_append_eq {ops tail above rest : List Pending} {callee : Option MathFunction}
    {commas : Nat} (hops : ∀ x ∈ ops, x.isBracket = false)
    (h : ops ++ tail = above ++ .bracket callee commas :: rest) :
    ∃ above', above = ops ++ above' ∧ tail = above' ++ .bracket callee commas :: rest := by
  rcases List.append_eq_append_iff.1 h with ⟨as, rfl, htail⟩ | ⟨as, hops', hrest⟩
  · exact ⟨as, rfl, htail⟩
  · cases as with
    | nil => exact ⟨[], by simpa using hops'.symm, by simpa using hrest.symm⟩
    | cons x as =>
      obtain ⟨rfl, -⟩ := List.cons.inj hrest
      have hx := hops (.bracket callee commas) (by simp [hops'])
      simp [Pending.isBracket] at hx

/-- A step that does not close a bracket leaves it, and what stands under it, on the stack. -/
theorem pending_of_step {s s' : State} {t : Token} (h : s.step t = .ok s')
    {above rest : List Pending} {callee : Option MathFunction} {commas : Nat}
    (hs : s.pending = above ++ .bracket callee commas :: rest)
    (ht : t = .closing → above.countP Pending.isBracket ≠ 0) :
    ∃ above' commas', s'.pending = above' ++ .bracket callee commas' :: rest := by
  cases step_eq_ok_iff.1 h with
  | operand _ => exact ⟨above, commas, hs⟩
  | function f output pending => exact ⟨above, commas, hs⟩
  | bracket output pending => exact ⟨.bracket none 0 :: above, commas, congrArg _ hs⟩
  | call f output pending => exact ⟨.bracket (some f) 0 :: above, commas, congrArg _ hs⟩
  | plus output pending => exact ⟨above, commas, hs⟩
  | minus output pending => exact ⟨.negation :: above, commas, congrArg _ hs⟩
  | operator output hops hrest =>
    obtain ⟨above', -, htail⟩ :=
      exists_of_append_eq (fun x hx => Pending.isBracket_of_precedes (hops x hx)) hs
    exact ⟨_ :: above', commas, congrArg _ htail⟩
  | comma f k output below hops =>
    obtain ⟨above', -, htail⟩ := exists_of_append_eq hops hs
    cases above' with
    | nil =>
      obtain ⟨hcallee, rfl⟩ := List.cons.inj htail
      cases hcallee
      exact ⟨[], _, rfl⟩
    | cons x above' =>
      obtain ⟨rfl, rfl⟩ := List.cons.inj htail
      exact ⟨.bracket (some f) (k + 1) :: above', commas, rfl⟩
  | closeBracket k output below hops =>
    obtain ⟨above', habove, htail⟩ := exists_of_append_eq hops hs
    cases above' with
    | nil =>
      subst habove
      exact absurd (countP_isBracket_append hops []) (ht rfl)
    | cons x above' =>
      obtain ⟨rfl, rfl⟩ := List.cons.inj htail
      exact ⟨above', commas, rfl⟩
  | closeCall output below hops hlen =>
    obtain ⟨above', habove, htail⟩ := exists_of_append_eq hops hs
    cases above' with
    | nil =>
      subst habove
      exact absurd (countP_isBracket_append hops []) (ht rfl)
    | cons x above' =>
      obtain ⟨rfl, rfl⟩ := List.cons.inj htail
      exact ⟨above', commas, rfl⟩

/-- Tokens that do not close a bracket leave it, and what stands under it, on the stack. -/
theorem pending_of_readAll {s s' : State} {ts : List Token} (h : readAll s ts = .ok s')
    {above rest : List Pending} {callee : Option MathFunction} {commas : Nat}
    (hs : s.pending = above ++ .bracket callee commas :: rest)
    (hdepth : depthAfter (above.countP Pending.isBracket) ts ≠ none) :
    ∃ above' commas', s'.pending = above' ++ .bracket callee commas' :: rest ∧
      depthAfter (above.countP Pending.isBracket) ts = some (above'.countP Pending.isBracket) := by
  induction ts generalizing s above commas with
  | nil =>
    cases h
    exact ⟨above, commas, hs, rfl⟩
  | cons t ts ih =>
    obtain ⟨s₁, hstep, h⟩ := readAll_cons_eq_ok_iff.1 h
    have ht : t = .closing → above.countP Pending.isBracket ≠ 0 := by
      rintro rfl hzero
      rw [hzero] at hdepth
      exact hdepth rfl
    obtain ⟨above₁, commas₁, hs₁⟩ := pending_of_step hstep hs ht
    -- The step counts the same above the bracket as on the whole stack.
    have hcount : depthAfter (above.countP Pending.isBracket) [t] =
        some (above₁.countP Pending.isBracket) := by
      have hwhole := depthAfter_step hstep
      simp only [State.depth, hs, hs₁, List.countP_append, countP_isBracket_bracket] at hwhole
      rcases hone : depthAfter (above.countP Pending.isBracket) [t] with _ | m
      · rw [← List.singleton_append, Token.depthAfter_append, hone] at hdepth
        exact absurd rfl hdepth
      · rw [Token.depthAfter_add hone] at hwhole
        simpa using hwhole
    rw [← List.singleton_append, Token.depthAfter_append, hcount] at hdepth ⊢
    exact ih h hs₁ hdepth

/-! ## Brackets and calls as operands -/

/-- A closing bracket is read behind an operand only. -/
theorem exists_filled_of_step_closing {s s' : State} (h : s.step .closing = .ok s') :
    ∃ output ops callee commas rest, s = .filled output (ops ++ .bracket callee commas :: rest) ∧
      (∀ x ∈ ops, x.isBracket = false) ∧ ∃ output', s' = .filled output' rest := by
  cases step_eq_ok_iff.1 h with
  | operand ht => rcases ht with ⟨v, hv⟩ | hv | hv <;> cases hv
  | closeBracket commas output rest hops => exact ⟨output, _, none, commas, rest, rfl, hops, _, rfl⟩
  | closeCall output rest hops hlen => exact ⟨output, _, some _, _, rest, rfl, hops, _, rfl⟩

/-- What an open bracket encloses leaves an operand and what stood under the bracket. -/
theorem exists_filled_of_readAll_closing {output : List Token} {pending : List Pending}
    {callee : Option MathFunction} {ts : List Token} (hts : Matched ts) {s : State}
    (h : readAll (.ready output (.bracket callee 0 :: pending)) (ts ++ [.closing]) = .ok s) :
    ∃ output', s = .filled output' pending := by
  obtain ⟨s₁, hread, hclose⟩ := readAll_append_eq_ok_iff.1 h
  rw [readAll_singleton] at hclose
  have hpending : (State.ready output (.bracket callee 0 :: pending)).pending =
      [] ++ .bracket callee 0 :: pending := rfl
  obtain ⟨above, commas, hs₁, hcount⟩ :=
    pending_of_readAll hread hpending (by rw [List.countP_nil, hts]; simp)
  obtain ⟨out₁, ops, callee₁, commas₁, rest, rfl, hops, output', rfl⟩ :=
    exists_filled_of_step_closing hclose
  refine ⟨output', ?_⟩
  obtain ⟨above', rfl, htail⟩ := exists_of_append_eq hops hs₁
  -- The tokens match, so the bracket closed is the one that was open.
  have hzero : above'.countP Pending.isBracket = 0 := by
    rw [List.countP_nil, hts, countP_isBracket_append hops] at hcount
    exact (Option.some.inj hcount).symm
  cases above' with
  | nil =>
    obtain ⟨-, rfl⟩ := List.cons.inj htail
    rfl
  | cons x above' =>
    obtain ⟨rfl, -⟩ := List.cons.inj htail
    simp [countP_isBracket_bracket] at hzero

/-- A bracket or a call is opened and its contents are read. -/
theorem readAll_enclosed (output : List Token) (pending : List Pending)
    (callee : Option MathFunction) (ts : List Token) :
    readAll (.ready output pending) (enclosed callee ts) =
      readAll (.ready output (.bracket callee 0 :: pending)) (ts ++ [.closing]) := by
  cases callee <;> rfl

/-- A bracket or a call of matching tokens leaves an operand and the stack as it was. -/
theorem exists_filled_of_readAll_enclosed {output : List Token} {pending : List Pending}
    {callee : Option MathFunction} {ts : List Token} (hts : Matched ts) {s : State}
    (h : readAll (.ready output pending) (enclosed callee ts) = .ok s) :
    ∃ output', s = .filled output' pending := by
  rw [readAll_enclosed] at h
  exact exists_filled_of_readAll_closing hts h

/-- Tokens in brackets are read well exactly when they are an expression. -/
theorem readAll_bracketed_eq_ok_iff {ts : List Token} (hts : Matched ts) (output : List Token)
    (pending : List Pending) (s : State) :
    readAll (.ready output pending) (enclosed none ts) = .ok s ↔
      ∃ listing, ofInfix ts = .ok listing ∧ s = .filled (listing.reverse ++ output) pending := by
  have hdepth : depthAfter 0 ts ≠ none := by simp [hts.depthAfter_eq]
  rw [readAll_enclosed, readAll_append, readAll_ready_bracket output pending hdepth]
  constructor
  · intro h
    rcases hread : readAll {} ts with fault | s₁
    · rw [hread] at h
      cases h
    rw [hread] at h
    have hclose : (s₁.onto output (.bracket none 0 :: pending)).step .closing = .ok s := by
      rwa [← readAll_singleton]
    obtain ⟨written, ops', callee, commas, rest, hs₁, hops', output', rfl⟩ :=
      exists_filled_of_step_closing hclose
    obtain ⟨out₁, ops, afterValue, awaiting⟩ := s₁
    obtain ⟨-, -, rfl, rfl⟩ := State.mk.inj hs₁
    -- The tokens match, so no bracket of theirs is open before the closing one.
    have hops : ∀ x ∈ ops, x.isBracket = false := by
      have hcount := depthAfter_of_readAll hread
      rw [hts.depthAfter_eq] at hcount
      simpa [State.depth] using (Option.some.inj hcount).symm
    have hread' : readAll {} ts = .ok (.filled out₁ ops) := hread
    refine ⟨_, ofInfix_eq_ok_iff_readAll.2 ⟨out₁, ops, hread', hops, rfl⟩, ?_⟩
    rw [← State.filled, onto_filled, State.step_filled_closing_bracket _ hops] at hclose
    rw [← Except.ok.inj hclose, released_append_output, List.reverse_reverse]
  · rintro ⟨listing, h, rfl⟩
    obtain ⟨out₁, ops, hread, hops, rfl⟩ := ofInfix_eq_ok_iff_readAll.1 h
    rw [hread]
    have hclose := State.step_filled_closing_bracket (out₁ ++ output) hops 0 pending
    rw [released_append_output, ← onto_filled, ← readAll_singleton] at hclose
    rw [List.reverse_reverse]
    exact hclose

end SciCalc.Postfix
