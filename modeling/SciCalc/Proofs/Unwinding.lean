import SciCalc.Proofs.Enclosing

/-!
# Unwinding the stack

At the end of the input closing brackets alone unwind the stack, and what they write is read off the
stack. So an operand that begins at the last open bracket is followed by what the rest of the stack
unwinds to, and a power sign behind it takes that operand and nothing of the rest. Only a stack of
brackets that belong to no function unwinds to nothing, and such a stack is left by brackets and
plus signs alone.
-/

set_option autoImplicit false

namespace SciCalc.Postfix

open Token (depthAfter Matched Bare enclosed)

/-! ## What a stack unwinds to -/

/-- What a stack writes once closing brackets and the end of the input have released it all. -/
def unwound : List Pending → List Token
  | [] => []
  | .bracket none _ :: pending => unwound pending
  | .bracket (some f) _ :: pending => .function f :: unwound pending
  | p :: pending => p.token :: unwound pending

/-- Every call that is open on the stack has seen the commas its function takes. -/
def Saturated (pending : List Pending) : Prop :=
  ∀ f commas, .bracket (some f) commas ∈ pending → commas + 1 = f.arity

/-- A stack on another unwinds first. -/
theorem unwound_append (pending rest : List Pending) :
    unwound (pending ++ rest) = unwound pending ++ unwound rest := by
  fun_induction unwound pending with
  | case1 => rfl
  | case2 commas pending ih => exact ih
  | case3 f commas pending ih => exact congrArg _ ih
  | case4 p pending hbracket hcall ih =>
    cases p with
    | operator op => exact congrArg _ ih
    | negation => exact congrArg _ ih
    | bracket callee commas =>
      cases callee with
      | none => exact absurd rfl (hbracket commas)
      | some f => exact absurd rfl (hcall f commas)

/-- Operators and negations are written as they are released. -/
theorem unwound_of_isBracket {ops : List Pending} (hops : ∀ x ∈ ops, x.isBracket = false) :
    unwound ops = ops.map Pending.token := by
  induction ops with
  | nil => rfl
  | cons x ops ih =>
    have hx := hops x (by simp)
    have ih := ih fun y hy => hops y (by simp [hy])
    cases x with
    | operator op => exact congrArg _ ih
    | negation => exact congrArg _ ih
    | bracket callee commas => simp [Pending.isBracket] at hx

/-- The open calls of two stacks are those of both. -/
theorem saturated_append (pending rest : List Pending) :
    Saturated (pending ++ rest) ↔ Saturated pending ∧ Saturated rest := by
  constructor
  · intro h
    exact ⟨fun f commas hmem => h f commas (List.mem_append.2 (.inl hmem)),
      fun f commas hmem => h f commas (List.mem_append.2 (.inr hmem))⟩
  · rintro ⟨hpending, hrest⟩ f commas hmem
    rcases List.mem_append.1 hmem with hmem | hmem
    · exact hpending f commas hmem
    · exact hrest f commas hmem

/-- Operators and negations are no open calls. -/
theorem saturated_of_isBracket {ops : List Pending} (hops : ∀ x ∈ ops, x.isBracket = false) :
    Saturated ops := by
  intro f commas hmem
  have := hops _ hmem
  simp [Pending.isBracket] at this

/-- What is no bracket is no open call. -/
theorem saturated_cons_of_isBracket {x : Pending} (hx : x.isBracket = false)
    (pending : List Pending) : Saturated (x :: pending) ↔ Saturated pending :=
  (saturated_append [x] pending).trans
    (and_iff_right (saturated_of_isBracket (List.forall_mem_singleton.2 hx)))

/-- A bracket that belongs to no function is no open call. -/
theorem saturated_bracket (commas : Nat) (rest : List Pending) :
    Saturated (.bracket none commas :: rest) ↔ Saturated rest := by
  simp [Saturated]

/-- An open call has seen its commas, and so have those below it. -/
theorem saturated_call (f : MathFunction) (commas : Nat) (rest : List Pending) :
    Saturated (.bracket (some f) commas :: rest) ↔ commas + 1 = f.arity ∧ Saturated rest := by
  constructor
  · intro h
    exact ⟨h f commas (by simp), fun g k hmem => h g k (by simp [hmem])⟩
  · rintro ⟨hlen, h⟩ g k hmem
    rcases List.mem_cons.1 hmem with heq | hmem
    · cases heq
      exact hlen
    · exact h g k hmem

/-- A stack is operators and negations down to its first bracket, if it has one. -/
theorem exists_innermost (pending : List Pending) :
    (∀ x ∈ pending, x.isBracket = false) ∨
      ∃ ops callee commas rest, pending = ops ++ .bracket callee commas :: rest ∧
        ∀ x ∈ ops, x.isBracket = false := by
  obtain ⟨ops, rest, rfl, hops, hrest⟩ := exists_append_of_stops (fun x => !x.isBracket) pending
  have hops : ∀ x ∈ ops, x.isBracket = false := by simpa using hops
  cases rest with
  | nil => exact .inl (by simpa using hops)
  | cons x rest =>
    have hx : x.isBracket = true := by simpa using stops_cons.1 hrest
    cases x with
    | bracket callee commas => exact .inr ⟨ops, callee, commas, rest, rfl, hops⟩
    | operator op => cases hx
    | negation => cases hx

/--
Behind an operand, as many closing brackets as are open end the input well exactly if every open
call has its arguments, and then they write what the stack unwinds to.
-/
theorem finish_closings_eq_ok_iff (output : List Token) (pending : List Pending)
    (listing : List Token) :
    (readAll (.filled output pending)
        (List.replicate (pending.countP Pending.isBracket) .closing)).bind State.finish =
        .ok listing ↔
      Saturated pending ∧ listing = output.reverse ++ unwound pending := by
  induction hn : pending.countP Pending.isBracket generalizing output pending with
  | zero =>
    have hops : ∀ x ∈ pending, x.isBracket = false := by simpa using hn
    have hsat := saturated_of_isBracket hops
    have hrun : (readAll (.filled output pending) (List.replicate 0 .closing)).bind State.finish =
        .ok (released pending output).reverse := State.finish_filled output hops
    rw [hrun, unwound_of_isBracket hops, released]
    simp [hsat, eq_comm]
  | succ n ih =>
    rcases exists_innermost pending with hops | ⟨ops, callee, commas, rest, rfl, hops⟩
    · have hzero : pending.countP Pending.isBracket = 0 := by simpa using hops
      omega
    rw [countP_isBracket_append hops, countP_isBracket_bracket] at hn
    have hn : rest.countP Pending.isBracket = n := by omega
    have hwritten : (released ops output).reverse = output.reverse ++ ops.map Pending.token := by
      simp [released]
    rw [saturated_append, and_iff_right (saturated_of_isBracket hops), unwound_append,
      unwound_of_isBracket hops, List.replicate_succ, readAll_cons]
    cases callee with
    | none =>
      rw [State.step_filled_closing_bracket output hops, saturated_bracket, unwound]
      refine (ih (released ops output) rest hn).trans ?_
      rw [hwritten, List.append_assoc]
    | some f =>
      rw [State.step_filled_closing_call output hops, saturated_call, unwound]
      by_cases hlen : commas + 1 = f.arity
      · rw [if_pos hlen]
        refine (ih (.function f :: released ops output) rest hn).trans ?_
        simp [hlen, hwritten]
      · rw [if_neg hlen]
        constructor
        · intro h
          cases h
        · rintro ⟨⟨h, -⟩, -⟩
          exact absurd h hlen

/-- Under a square closing brackets write what the stack below it unwinds to. -/
theorem finish_square_closings_eq_ok_iff (output : List Token) (pending : List Pending)
    (listing : List Token) :
    (readAll (.filled (.number 2 :: output) (.operator .raise :: pending))
        (List.replicate (pending.countP Pending.isBracket) .closing)).bind State.finish =
        .ok listing ↔
      Saturated pending ∧
        listing = output.reverse ++ [.number 2, .operator .raise] ++ unwound pending := by
  have hraise : ∀ x ∈ [Pending.operator .raise], x.isBracket = false := by
    simp [Pending.isBracket]
  have hcount := countP_isBracket_append hraise pending
  have hfinish := finish_closings_eq_ok_iff (.number 2 :: output)
    ([.operator .raise] ++ pending) listing
  rw [hcount, unwound_append, unwound_of_isBracket hraise, saturated_append,
    and_iff_right (saturated_of_isBracket hraise)] at hfinish
  refine hfinish.trans ?_
  simp [Pending.token]

/-- A bracket at the bottom of the stack leaves no trace once it is closed. -/
theorem bracket_at_bottom (pending : List Pending) :
    (pending ++ [Pending.bracket none 0]).countP Pending.isBracket =
        pending.countP Pending.isBracket + 1 ∧
      unwound (pending ++ [.bracket none 0]) = unwound pending ∧
      (Saturated (pending ++ [.bracket none 0]) ↔ Saturated pending) := by
  refine ⟨by simp [Pending.isBracket], ?_, by simp [Saturated]⟩
  rw [unwound_append, unwound, unwound, List.append_nil]

/-! ## Closing brackets at the end of the input -/

/-- A square behind an operand is read on top of the stack. -/
theorem readAll_filled_square (output : List Token) (pending : List Pending) :
    readAll (.filled output pending) [.operator .raise, .number 2] =
      .ok (.filled (.number 2 :: output) (.operator .raise :: pending)) := by
  rw [readAll_cons_of_ok (State.step_filled_raise output _)]
  rfl

/-- Joined tokens are read to the end one part after the other. -/
theorem finish_readAll_append (s : State) (ts us : List Token) :
    (readAll s (ts ++ us)).bind State.finish =
      (readAll s ts).bind fun s' => (readAll s' us).bind State.finish := by
  rw [readAll_append]
  exact bind_assoc (readAll s ts) _ _

/-- Behind a bracket tokens are read to the end on what others leave on top of the bracket. -/
theorem finish_readAll_opening {ts : List Token} (h : depthAfter 0 ts ≠ none) (us : List Token) :
    (readAll {} (.opening :: (ts ++ us))).bind State.finish =
      (readAll {} ts).bind fun s =>
        (readAll (s.onto [] [.bracket none 0]) us).bind State.finish := by
  have hstart : readAll {} (.opening :: ts) =
      (readAll {} ts).map (State.onto [] [.bracket none 0]) := readAll_ready_bracket [] [] h
  rw [← List.cons_append, finish_readAll_append, hstart]
  cases readAll {} ts <;> rfl

section

variable {ts : List Token} {n : Nat} (hdepth : depthAfter 0 ts = some n)
  (hfilled : ∀ s, readAll {} ts = .ok s → ∃ output pending, s = .filled output pending)

include hdepth hfilled

/-- Behind tokens that end with an operand closing brackets are read on what these leave. -/
theorem bind_readAll_eq_ok_iff {p : List Token → List Pending → Prop}
    {f : State → Except Malformation (List Token)} {listing : List Token}
    (h : ∀ output pending, pending.countP Pending.isBracket = n →
      (f (.filled output pending) = .ok listing ↔ p output pending)) :
    (readAll {} ts).bind f = .ok listing ↔
      ∃ output pending, readAll {} ts = .ok (.filled output pending) ∧ p output pending := by
  rw [bind_eq_ok_iff]
  have hcount {output : List Token} {pending : List Pending}
      (hread : readAll {} ts = .ok (.filled output pending)) :
      pending.countP Pending.isBracket = n :=
    Option.some.inj ((depthAfter_of_readAll hread).symm.trans hdepth)
  constructor
  · rintro ⟨s, hread, hf⟩
    obtain ⟨output, pending, rfl⟩ := hfilled s hread
    exact ⟨output, pending, hread, (h output pending (hcount hread)).1 hf⟩
  · rintro ⟨output, pending, hread, hp⟩
    exact ⟨_, hread, (h output pending (hcount hread)).2 hp⟩

/-- Closing brackets behind an operand end the input well if the open calls are complete. -/
theorem ofInfix_append_closings_eq_ok_iff (listing : List Token) :
    ofInfix (ts ++ List.replicate n .closing) = .ok listing ↔
      ∃ output pending, readAll {} ts = .ok (.filled output pending) ∧ Saturated pending ∧
        listing = output.reverse ++ unwound pending := by
  rw [ofInfix_eq_ok_iff_bind, finish_readAll_append]
  refine bind_readAll_eq_ok_iff hdepth hfilled fun output pending hcount => ?_
  rw [← hcount]
  exact finish_closings_eq_ok_iff output pending listing

/-- A square behind the operand squares the operand alone. -/
theorem ofInfix_raise_closings_eq_ok_iff (listing : List Token) :
    ofInfix (ts ++ [.operator .raise, .number 2] ++ List.replicate n .closing) = .ok listing ↔
      ∃ output pending, readAll {} ts = .ok (.filled output pending) ∧ Saturated pending ∧
        listing = output.reverse ++ [.number 2, .operator .raise] ++ unwound pending := by
  rw [ofInfix_eq_ok_iff_bind, List.append_assoc, finish_readAll_append]
  refine bind_readAll_eq_ok_iff hdepth hfilled fun output pending hcount => ?_
  rw [readAll_append_of_ok (readAll_filled_square output pending), ← hcount]
  exact finish_square_closings_eq_ok_iff output pending listing

/-- With a bracket in front and a square behind the operand, the operand alone is squared. -/
theorem ofInfix_square_closings_eq_ok_iff (listing : List Token) :
    ofInfix (.opening :: (ts ++ [.operator .raise, .number 2] ++ List.replicate (n + 1) .closing)) =
        .ok listing ↔
      ∃ output pending, readAll {} ts = .ok (.filled output pending) ∧ Saturated pending ∧
        listing = output.reverse ++ [.number 2, .operator .raise] ++ unwound pending := by
  rw [ofInfix_eq_ok_iff_bind, List.append_assoc, finish_readAll_opening (by simp [hdepth])]
  refine bind_readAll_eq_ok_iff hdepth hfilled fun output pending hcount => ?_
  obtain ⟨hbrackets, hunwound, hsaturated⟩ := bracket_at_bottom pending
  rw [onto_filled, List.append_nil, readAll_append_of_ok (readAll_filled_square output _),
    ← hcount, ← hbrackets, ← hunwound, ← hsaturated]
  exact finish_square_closings_eq_ok_iff output _ listing

end

/-! ## Stacks of plain brackets -/

/-- Nothing but brackets of no function. -/
def PlainBrackets (pending : List Pending) : Prop :=
  ∀ x ∈ pending, ∃ commas, x = .bracket none commas

/-- A stack unwinds to nothing exactly if it is brackets of no function. -/
theorem unwound_eq_nil_iff (pending : List Pending) :
    unwound pending = [] ↔ PlainBrackets pending := by
  fun_induction unwound pending with
  | case1 => simp [PlainBrackets]
  | case2 commas pending ih => simpa [PlainBrackets] using ih
  | case3 f commas pending _ => simp [PlainBrackets]
  | case4 p pending hbracket _ _ =>
    constructor
    · intro h
      cases h
    · intro h
      obtain ⟨commas, hp⟩ := h p (by simp)
      exact absurd hp (hbracket commas)

/-- A stack unwinds to operators and functions only. -/
theorem number_not_mem_unwound (v : Float) (pending : List Pending) :
    .number v ∉ unwound pending := by
  fun_induction unwound pending with
  | case1 => simp
  | case2 commas pending ih => exact ih
  | case3 f commas pending ih => simpa using ih
  | case4 p pending _ _ ih => cases p <;> simpa [Pending.token] using ih

/-- Brackets and plus signs put nothing but brackets on the stack. -/
theorem readAll_bare {ts : List Token} (h : Bare ts) (output : List Token) {pending : List Pending}
    (hpending : PlainBrackets pending) :
    ∃ pending', readAll (.ready output pending) ts = .ok (.ready output pending') ∧
      PlainBrackets pending' := by
  induction ts generalizing pending with
  | nil => exact ⟨pending, rfl, hpending⟩
  | cons t ts ih =>
    have hts : Bare ts := fun u hu => h u (by simp [hu])
    rcases h t (by simp) with rfl | rfl
    · have hbracket : PlainBrackets (.bracket none 0 :: pending) := by
        simpa [PlainBrackets] using hpending
      obtain ⟨pending', hread, hplain⟩ := ih hts hbracket
      exact ⟨pending', hread, hplain⟩
    · obtain ⟨pending', hread, hplain⟩ := ih hts hpending
      exact ⟨pending', hread, hplain⟩

/-- Tokens that put nothing but brackets on the stack are brackets and plus signs. -/
theorem bare_of_opens {c : Grammar.Category} {pending : List Pending} {ts output : List Token}
    (h : Opens c pending ts output) (hpending : PlainBrackets pending) : Bare ts := by
  have hsign {op : Operator} {pending : List Pending} :
      ¬PlainBrackets (.operator op :: pending) := by
    intro hplain
    obtain ⟨commas, hop⟩ := hplain _ (List.mem_cons_self ..)
    cases hop
  induction h with
  | start => simp [Bare]
  | bracket _ ih =>
    have hbefore := ih fun x hx => hpending x (by simp [hx])
    intro t ht
    rcases List.mem_append.1 ht with ht | ht
    · exact hbefore t ht
    · exact .inl (List.mem_singleton.1 ht)
  | call f args _ _ _ =>
    obtain ⟨commas, hcall⟩ := hpending _ (List.mem_cons_self ..)
    cases hcall
  | sum _ _ _ _ => exact absurd hpending hsign
  | product _ _ _ _ _ => exact absurd hpending hsign
  | minus _ _ =>
    obtain ⟨commas, hneg⟩ := hpending _ (List.mem_cons_self ..)
    cases hneg
  | plus _ ih =>
    have hbefore := ih hpending
    intro t ht
    rcases List.mem_append.1 ht with ht | ht
    · exact hbefore t ht
    · exact .inr (List.mem_singleton.1 ht)
  | power _ _ _ => exact absurd hpending hsign

/-! ## The operand that begins at the last open bracket -/

section

variable {before ts : List Token} {callee : Option MathFunction} (hts : Matched ts)
  (hcallee : callee = none → ∀ f, before.getLast? ≠ some (.function f))

include hts hcallee

/-- The bracket or call is read as an operand on the stack that the tokens before it leave. -/
theorem exists_ready_of_readAll_enclosed {s : State}
    (h : readAll {} (before ++ enclosed callee ts) = .ok s) :
    ∃ output output' pending, readAll {} before = .ok (.ready output' pending) ∧
      s = .filled output pending := by
  obtain ⟨s₁, hread, h⟩ := readAll_append_eq_ok_iff.1 h
  have hready : ∃ output' pending, s₁ = .ready output' pending := by
    cases callee with
    | none =>
      obtain ⟨s₂, hstep, -⟩ := readAll_cons_eq_ok_iff.1 h
      cases step_eq_ok_iff.1 hstep with
      | operand ht => rcases ht with ⟨v, hv⟩ | hv | hv <;> cases hv
      | bracket output' pending => exact ⟨output', pending, rfl⟩
      | call f output' pending =>
        obtain ⟨c, ts', rfl, -⟩ := (reads_of_readAll hread).exists_opens_of_called
        exact absurd (by simp) (hcallee rfl f)
    | some f =>
      obtain ⟨s₂, hstep, -⟩ := readAll_cons_eq_ok_iff.1 h
      cases step_eq_ok_iff.1 hstep with
      | operand ht => rcases ht with ⟨v, hv⟩ | hv | hv <;> cases hv
      | function f output' pending => exact ⟨output', pending, rfl⟩
  obtain ⟨output', pending, rfl⟩ := hready
  obtain ⟨output, rfl⟩ := exists_filled_of_readAll_enclosed hts h
  exact ⟨output, output', pending, hread, rfl⟩

/-- The tokens up to the end of the bracket or call end with an operand. -/
theorem exists_filled_of_readAll_append_enclosed {s : State}
    (h : readAll {} (before ++ enclosed callee ts) = .ok s) :
    ∃ output pending, s = .filled output pending := by
  obtain ⟨output, -, pending, -, rfl⟩ := exists_ready_of_readAll_enclosed hts hcallee h
  exact ⟨output, pending, rfl⟩

/-- The stack under the operand is plain brackets exactly if only those and plus signs are read. -/
theorem plainBrackets_iff_bare {output : List Token} {pending : List Pending}
    (h : readAll {} (before ++ enclosed callee ts) = .ok (.filled output pending)) :
    PlainBrackets pending ↔ Bare before := by
  obtain ⟨output₁, output', pending', hread, hs⟩ := exists_ready_of_readAll_enclosed hts hcallee h
  obtain ⟨rfl, rfl, -⟩ := State.mk.inj hs
  constructor
  · intro hplain
    obtain ⟨c, hopen⟩ := (reads_of_readAll hread).exists_opens
    exact bare_of_opens hopen hplain
  · intro hbare
    have hempty : PlainBrackets [] := by simp [PlainBrackets]
    obtain ⟨pending', hread', hplain⟩ := readAll_bare hbare [] hempty
    have hstart : readAll {} before = .ok (.ready [] pending') := hread'
    rw [hread] at hstart
    obtain ⟨-, rfl, -⟩ := State.mk.inj (Except.ok.inj hstart)
    exact hplain

end

end SciCalc.Postfix
