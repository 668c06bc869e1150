import SciCalc.Proofs.ReadingDerivations

/-!
# Parsing is deriving

The conversion to postfix followed by the reading of trees accepts exactly what the grammar derives,
and answers the tree of the derivation.

One half is the reading of derivations. For the other half the stack is read back as an unfinished
derivation: `Opens` says which part of it each waiting operator, negation and bracket stands for and
what of it is in the output already. Behind an operand the last tokens are an atom. An operator that
arrives closes what is stronger, so the atom grows to a signed operand, a product or a sum, and that
is how the release of waiting operators builds derivations.
-/

set_option autoImplicit false

namespace SciCalc

/-- The tree of infix tokens, read through their postfix form. -/
def Expr.ofInfix (ts : List Token) : Except Malformation Expr := do
  let listing ← Postfix.ofInfix ts
  Expr.ofPostfix listing

namespace Postfix

open Grammar

/--
The tokens lead to a place for an operand: with `pending` on the stack and `output` written, an
operand of the category may come next, and each waiting operator, negation and bracket goes on to
take it in.
-/
inductive Opens : Category → List Pending → List Token → List Token → Prop where
  | start : Opens .sum [] [] []
  | bracket {c : Category} {pending : List Pending} {ts output : List Token} :
      Opens c pending ts output →
      Opens .sum (.bracket none 0 :: pending) (ts ++ [.opening]) output
  /-- Inside a call, behind some of its arguments. -/
  | call {c : Category} {pending : List Pending} {ts output : List Token} (f : MathFunction)
      (args : List (List Token × Expr)) : (∀ a ∈ args, Derives .plain .sum a.1 a.2) →
      Opens c pending ts output →
      Opens .sum (.bracket (some f) args.length :: pending)
        (ts ++ .function f :: .opening :: args.flatMap fun a => a.1 ++ [.comma])
        ((Expr.listingAll (args.map Prod.snd)).reverse ++ output)
  | sum {pending : List Pending} {ts us output : List Token} {e : Expr} {op : Operator} :
      op = .add ∨ op = .subtract → Opens .sum pending ts output → Derives .plain .sum us e →
      Opens .product (.operator op :: pending) (ts ++ us ++ [.operator op])
        (e.listing.reverse ++ output)
  | product {c : Category} {pending : List Pending} {ts us output : List Token} {e : Expr}
      {op : Operator} : op = .multiply ∨ op = .divide → c ≠ .signed → Opens c pending ts output →
      Derives .plain .product us e →
      Opens .signed (.operator op :: pending) (ts ++ us ++ [.operator op])
        (e.listing.reverse ++ output)
  | minus {c : Category} {pending : List Pending} {ts output : List Token} :
      Opens c pending ts output →
      Opens .signed (.negation :: pending) (ts ++ [.operator .subtract]) output
  | plus {c : Category} {pending : List Pending} {ts output : List Token} :
      Opens c pending ts output → Opens .signed pending (ts ++ [.operator .add]) output
  | power {c : Category} {pending : List Pending} {ts us output : List Token} {e : Expr} :
      Opens c pending ts output → Derives .plain .atom us e →
      Opens .signed (.operator .raise :: pending) (ts ++ us ++ [.operator .raise])
        (e.listing.reverse ++ output)

/--
The tokens end with an operand of the category: with `pending` on the stack and `output` written, it
stands at a place of the category `c`.
-/
def EndsWith (d c : Category) (pending : List Pending) (ts output : List Token) : Prop :=
  ∃ before operand e output', ts = before ++ operand ∧ Derives .plain d operand e ∧
    Opens c pending before output' ∧ output = e.listing.reverse ++ output'

/-- A place for a sum lies at the start or behind a bracket. -/
theorem Opens.stops_of_sum {pending : List Pending} {ts output : List Token}
    (h : Opens .sum pending ts output) : Stops (fun x => !x.isBracket) pending := by
  cases h with
  | start => exact stops_nil _
  | bracket _ => exact State.stops_at_bracket _ _ _
  | call _ _ _ _ => exact State.stops_at_bracket _ _ _

/-- A place for a sum without a bracket on the stack is the start. -/
theorem Opens.eq_start {pending : List Pending} {ts output : List Token}
    (h : Opens .sum pending ts output) (hb : ∀ x ∈ pending, x.isBracket = false) :
    pending = [] ∧ ts = [] ∧ output = [] := by
  cases h with
  | start => exact ⟨rfl, rfl, rfl⟩
  | bracket _ => simpa [Pending.isBracket] using hb _ (List.mem_cons_self ..)
  | call _ _ _ _ => simpa [Pending.isBracket] using hb _ (List.mem_cons_self ..)

/-- What stops at every operator stops at each one. -/
theorem stops_precedes {pending : List Pending} (h : Stops (fun x => !x.isBracket) pending)
    (op : Operator) : Stops (Pending.precedes op) pending := by
  intro x hx
  have hb : x.isBracket = true := by simpa using h x hx
  cases x with
  | bracket _ _ => rfl
  | operator _ => simp [Pending.isBracket] at hb
  | negation => simp [Pending.isBracket] at hb

/-! ## Operands grow -/

/--
A signed operand at any place closes the signs, powers and product before it. What is left is a
product at a place that is not inside another one.
-/
theorem Opens.grow_product {c : Category} {pending : List Pending} {ts output : List Token}
    (h : Opens c pending ts output) {us : List Token} {e : Expr}
    (he : Derives .plain .signed us e) :
    ∃ ops rest, pending = ops ++ rest ∧ (∀ x ∈ ops, x.precedes .multiply = true) ∧
      Stops (Pending.precedes .multiply) rest ∧
      ∃ c', c' ≠ .signed ∧
        EndsWith .product c' rest (ts ++ us) (released ops (e.listing.reverse ++ output)) := by
  induction h generalizing us e with
  | start =>
    exact ⟨[], [], rfl, by simp, stops_nil _, .sum, by simp,
      [], us, e, [], rfl, .productOfSigned he, .start, rfl⟩
  | bracket hopen _ =>
    exact ⟨[], _, rfl, by simp, stops_cons.2 rfl, .sum, by simp,
      _, us, e, _, rfl, .productOfSigned he, .bracket hopen, rfl⟩
  | call f args hargs hopen _ =>
    exact ⟨[], _, rfl, by simp, stops_cons.2 rfl, .sum, by simp,
      _, us, e, _, rfl, .productOfSigned he, .call f args hargs hopen, rfl⟩
  | sum hop hopen hl _ =>
    refine ⟨[], _, rfl, by simp, ?_, .product, by simp,
      _, us, e, _, rfl, .productOfSigned he, .sum hop hopen hl, rfl⟩
    rcases hop with rfl | rfl <;> exact stops_cons.2 rfl
  | @product c pending ts vs output l op hop hc hopen hl _ =>
    have hrest : Stops (Pending.precedes .multiply) pending := by
      cases hopen with
      | start => exact stops_nil _
      | bracket _ => exact stops_cons.2 rfl
      | call _ _ _ _ => exact stops_cons.2 rfl
      | sum hop _ _ => rcases hop with rfl | rfl <;> exact stops_cons.2 rfl
      | product _ _ _ _ => exact absurd rfl hc
      | minus _ => exact absurd rfl hc
      | plus _ => exact absurd rfl hc
      | power _ _ => exact absurd rfl hc
    refine ⟨[.operator op], pending, rfl, ?_, hrest, c, hc,
      ts, vs ++ .operator op :: us, .binary op l e, output, by simp, .product hop hl he, hopen, ?_⟩
    · rcases hop with rfl | rfl <;> simp [Pending.precedes, Operator.strength, Operator.groupsRight]
    · simp [released_singleton, Pending.token, Expr.listing]
  | @minus c pending ts output _ ih =>
    obtain ⟨ops, rest, rfl, hops, hrest, c', hc', hend⟩ := ih (.minus he)
    refine ⟨.negation :: ops, rest, rfl, ?_, hrest, c', hc', ?_⟩
    · simpa using ⟨rfl, hops⟩
    · simpa [released, Pending.token, Expr.listing] using hend
  | @plus c pending ts output _ ih =>
    obtain ⟨ops, rest, rfl, hops, hrest, c', hc', hend⟩ := ih (.plus he)
    exact ⟨ops, rest, rfl, hops, hrest, c', hc', by simpa using hend⟩
  | @power c pending ts vs output b _ hb ih =>
    obtain ⟨ops, rest, rfl, hops, hrest, c', hc', hend⟩ := ih (.signedOfPower (.power hb he))
    refine ⟨.operator .raise :: ops, rest, rfl, ?_, hrest, c', hc', ?_⟩
    · simpa using ⟨rfl, hops⟩
    · simpa [released, Pending.token, Expr.listing] using hend

/-- A product at a place that is not inside another one closes the sum before it. -/
theorem Opens.grow_sum {c : Category} (hc : c ≠ .signed) {pending : List Pending}
    {ts output : List Token} (h : Opens c pending ts output) {us : List Token} {e : Expr}
    (he : Derives .plain .product us e) :
    ∃ ops rest, pending = ops ++ rest ∧ (∀ x ∈ ops, x.precedes .add = true) ∧
      Stops (fun x => !x.isBracket) rest ∧
      EndsWith .sum .sum rest (ts ++ us) (released ops (e.listing.reverse ++ output)) := by
  have here : c = .sum → ∃ ops rest, pending = ops ++ rest ∧ (∀ x ∈ ops, x.precedes .add = true) ∧
      Stops (fun x => !x.isBracket) rest ∧
      EndsWith .sum .sum rest (ts ++ us) (released ops (e.listing.reverse ++ output)) := by
    rintro rfl
    exact ⟨[], pending, rfl, by simp, h.stops_of_sum, ts, us, e, output, rfl, .sumOfProduct he, h,
      rfl⟩
  cases h with
  | start => exact here rfl
  | bracket _ => exact here rfl
  | call _ _ _ _ => exact here rfl
  | @sum pending ts vs output l op hop hopen hl =>
    refine ⟨[.operator op], pending, rfl, ?_, hopen.stops_of_sum,
      ts, vs ++ .operator op :: us, .binary op l e, output, by simp, .sum hop hl he, hopen, ?_⟩
    · rcases hop with rfl | rfl <;> simp [Pending.precedes, Operator.strength, Operator.groupsRight]
    · simp [released_singleton, Pending.token, Expr.listing]
  | product _ _ _ _ => exact absurd rfl hc
  | minus _ => exact absurd rfl hc
  | plus _ => exact absurd rfl hc
  | power _ _ => exact absurd rfl hc

/-- An atom at any place closes everything up to the innermost bracket. -/
theorem EndsWith.grow_sum {c : Category} {pending : List Pending} {ts output : List Token}
    (h : EndsWith .atom c pending ts output) :
    ∃ ops rest, pending = ops ++ rest ∧ (∀ x ∈ ops, x.precedes .add = true) ∧
      Stops (fun x => !x.isBracket) rest ∧ EndsWith .sum .sum rest ts (released ops output) := by
  obtain ⟨before, operand, e, output', rfl, he, hopen, rfl⟩ := h
  obtain ⟨ops, rest, rfl, hops, -, c', hc', before', operand', e', out', hts, he', hopen', hout⟩ :=
    hopen.grow_product (.signedOfPower (.powerOfAtom he))
  obtain ⟨ops', rest', rfl, hops', hrest', hend⟩ := hopen'.grow_sum hc' he'
  refine ⟨ops ++ ops', rest', by simp, fun x hx => ?_, hrest', ?_⟩
  · rcases List.mem_append.1 hx with hx | hx
    · exact Pending.precedes_add_of_multiply (hops x hx)
    · exact hops' x hx
  · rw [released_append, hout, hts]
    exact hend

/-! ## The invariant of the conversion -/

/-- The tokens read so far, as the part of a derivation that the state stands for. -/
inductive Reads : List Token → State → Prop where
  | ready {c : Category} {pending : List Pending} {ts output : List Token} :
      Opens c pending ts output → Reads ts (.ready output pending)
  | called {c : Category} {pending : List Pending} {ts output : List Token} (f : MathFunction) :
      Opens c pending ts output → Reads (ts ++ [.function f]) (.called f output pending)
  | filled {c : Category} {pending : List Pending} {ts output : List Token} :
      EndsWith .atom c pending ts output → Reads ts (.filled output pending)

/-- Before an operand the tokens lead to a place for one. -/
theorem Reads.exists_opens {ts output : List Token} {pending : List Pending}
    (h : Reads ts (.ready output pending)) : ∃ c, Opens c pending ts output := by
  generalize hs : State.ready output pending = s at h
  cases h with
  | ready hopen =>
    cases hs
    exact ⟨_, hopen⟩
  | called f _ => cases hs
  | filled _ => cases hs

/-- Behind a function name the tokens before it lead to a place for an operand. -/
theorem Reads.exists_opens_of_called {ts output : List Token} {pending : List Pending}
    {f : MathFunction} (h : Reads ts (.called f output pending)) :
    ∃ c before, ts = before ++ [.function f] ∧ Opens c pending before output := by
  generalize hs : State.called f output pending = s at h
  cases h with
  | ready _ => cases hs
  | called f hopen =>
    cases hs
    exact ⟨_, _, rfl, hopen⟩
  | filled _ => cases hs

/-- Behind an operand the tokens end with an atom. -/
theorem Reads.exists_endsWith {ts output : List Token} {pending : List Pending}
    (h : Reads ts (.filled output pending)) : ∃ c, EndsWith .atom c pending ts output := by
  generalize hs : State.filled output pending = s at h
  cases h with
  | ready _ => cases hs
  | called f _ => cases hs
  | filled hend =>
    cases hs
    exact ⟨_, hend⟩

/-- An operator behind an operand closes what it releases and waits. -/
theorem Reads.step_operator {c : Category} {pending : List Pending} {ts output : List Token}
    (h : EndsWith .atom c pending ts output) {op : Operator} {s : State}
    (hs : (State.filled output pending).step (.operator op) = .ok s) :
    Reads (ts ++ [.operator op]) s := by
  have hsum (hop : op = .add ∨ op = .subtract) : Reads (ts ++ [.operator op]) s := by
    obtain ⟨ops, rest, rfl, hops, hrest, before, operand, e, out, rfl, he, hopen, hout⟩ :=
      h.grow_sum
    have hsign : Pending.precedes op = Pending.precedes .add := by
      rcases hop with rfl | rfl
      · rfl
      · exact Pending.precedes_subtract
    rw [State.step_filled_operator output (hsign ▸ hops) (stops_precedes hrest op)] at hs
    cases hs
    rw [hout]
    exact .ready (.sum hop hopen he)
  have hproduct (hop : op = .multiply ∨ op = .divide) : Reads (ts ++ [.operator op]) s := by
    obtain ⟨before, operand, e, out, rfl, he, hopen, rfl⟩ := h
    obtain ⟨ops, rest, rfl, hops, hrest, c', hc', before', operand', e', out', hts, he', hopen',
      hout⟩ := hopen.grow_product (.signedOfPower (.powerOfAtom he))
    have hsign : Pending.precedes op = Pending.precedes .multiply := by
      rcases hop with rfl | rfl
      · rfl
      · exact Pending.precedes_divide
    rw [State.step_filled_operator _ (hsign ▸ hops) (hsign ▸ hrest)] at hs
    cases hs
    rw [hout, hts]
    exact .ready (.product hop hc' hopen' he')
  cases op with
  | add => exact hsum (.inl rfl)
  | subtract => exact hsum (.inr rfl)
  | multiply => exact hproduct (.inl rfl)
  | divide => exact hproduct (.inr rfl)
  | raise =>
    obtain ⟨before, operand, e, out, rfl, he, hopen, rfl⟩ := h
    rw [State.step_filled_raise] at hs
    cases hs
    exact .ready (.power hopen he)

/-- A comma behind an operand ends an argument of the call it stands in. -/
theorem Reads.step_comma {c : Category} {pending : List Pending} {ts output : List Token}
    (h : EndsWith .atom c pending ts output) {s : State}
    (hs : (State.filled output pending).step .comma = .ok s) : Reads (ts ++ [.comma]) s := by
  obtain ⟨ops, rest, rfl, hops, hrest, before, operand, e, out, rfl, he, hopen, hout⟩ := h.grow_sum
  have hb : ∀ x ∈ ops, x.isBracket = false := fun x hx => Pending.isBracket_of_precedes (hops x hx)
  cases hopen with
  | start =>
    have hinner := State.innermost?_filled_eq_none hb output
    rw [List.append_nil, State.step_filled_comma_eq_error (by simp [hinner])] at hs
    cases hs
  | @bracket _ rest ts out hopen =>
    have hinner := State.innermost?_filled hb output none 0 rest
    rw [State.step_filled_comma_eq_error (by simp [hinner])] at hs
    cases hs
  | @call _ rest ts out f args hargs hopen =>
    rw [State.step_filled_comma output hb] at hs
    cases hs
    have hall : ∀ a ∈ args ++ [(operand, e)], Derives .plain .sum a.1 a.2 :=
      List.forall_mem_append.2 ⟨hargs, List.forall_mem_singleton.2 he⟩
    have hcall := Opens.call f (args ++ [(operand, e)]) hall hopen
    rw [hout]
    simpa [Expr.listingAll_eq_flatMap] using Reads.ready hcall

/-- Arguments each followed by a comma, and a last one, are the arguments with commas between. -/
theorem flatMap_comma_append (args : List (List Token × Expr)) (last : List Token) :
    (args.flatMap fun a => a.1 ++ [.comma]) ++ last =
      [Token.comma].intercalate (args.map Prod.fst ++ [last]) := by
  induction args with
  | nil => simp
  | cons a args ih =>
    rw [List.map_cons, List.cons_append, List.intercalate_cons_of_ne_nil (by simp), ← ih]
    simp

/-- A closing bracket behind an operand completes the atom that its opening bracket began. -/
theorem Reads.step_closing {c : Category} {pending : List Pending} {ts output : List Token}
    (h : EndsWith .atom c pending ts output) {s : State}
    (hs : (State.filled output pending).step .closing = .ok s) : Reads (ts ++ [.closing]) s := by
  obtain ⟨ops, rest, rfl, hops, hrest, before, operand, e, out, rfl, he, hopen, hout⟩ := h.grow_sum
  have hb : ∀ x ∈ ops, x.isBracket = false := fun x hx => Pending.isBracket_of_precedes (hops x hx)
  cases hopen with
  | start =>
    have hinner := State.innermost?_filled_eq_none hb output
    rw [List.append_nil, State.step_filled_closing_eq_error hinner] at hs
    cases hs
  | @bracket _ rest ts out hopen =>
    rw [State.step_filled_closing_bracket output hb] at hs
    cases hs
    exact .filled ⟨ts, .opening :: (operand ++ [.closing]), e, out, by simp, .bracketed he, hopen,
      hout⟩
  | @call _ rest ts out f args hargs hopen =>
    rw [State.step_filled_closing_call output hb] at hs
    split at hs
    case isFalse => cases hs
    case isTrue hlen =>
      cases hs
      have hall : ∀ a ∈ args ++ [(operand, e)], Derives .plain .sum a.1 a.2 :=
        List.forall_mem_append.2 ⟨hargs, List.forall_mem_singleton.2 he⟩
      have hlength : (args ++ [(operand, e)]).length = f.arity := by simpa using hlen
      have hcall := Derives.call_of_list hlength hall
      refine .filled ⟨ts, _, _, out, ?_, hcall, hopen, ?_⟩
      · rw [List.map_append, List.map_singleton, ← flatMap_comma_append]
        simp
      · rw [hout]
        simp [Expr.listing, Expr.listingAll_eq_flatMap]

/-- Every token that is read goes on the derivation. -/
theorem Reads.step {ts : List Token} {s s' : State} {t : Token} (h : Reads ts s)
    (hs : s.step t = .ok s') : Reads (ts ++ [t]) s' := by
  cases step_eq_ok_iff.1 hs with
  | @operand t output pending ht =>
    obtain ⟨c, hopen⟩ := h.exists_opens
    rcases ht with ⟨v, rfl⟩ | rfl | rfl
    · exact .filled ⟨ts, _, _, output, rfl, .number v, hopen, rfl⟩
    · exact .filled ⟨ts, _, _, output, rfl, .pi, hopen, rfl⟩
    · exact .filled ⟨ts, _, _, output, rfl, .answer, hopen, rfl⟩
  | function f output pending =>
    obtain ⟨c, hopen⟩ := h.exists_opens
    exact .called f hopen
  | bracket output pending =>
    obtain ⟨c, hopen⟩ := h.exists_opens
    exact .ready (.bracket hopen)
  | call f output pending =>
    obtain ⟨c, before, rfl, hopen⟩ := h.exists_opens_of_called
    have hcall := Opens.call f [] (by simp) hopen
    simpa [Expr.listingAll, State.ready] using Reads.ready hcall
  | plus output pending =>
    obtain ⟨c, hopen⟩ := h.exists_opens
    exact .ready (.plus hopen)
  | minus output pending =>
    obtain ⟨c, hopen⟩ := h.exists_opens
    exact .ready (.minus hopen)
  | operator output hops hrest =>
    obtain ⟨c, hend⟩ := h.exists_endsWith
    exact step_operator hend hs
  | comma f commas output rest hops =>
    obtain ⟨c, hend⟩ := h.exists_endsWith
    exact step_comma hend hs
  | closeBracket commas output rest hops =>
    obtain ⟨c, hend⟩ := h.exists_endsWith
    exact step_closing hend hs
  | closeCall output rest hops hlen =>
    obtain ⟨c, hend⟩ := h.exists_endsWith
    exact step_closing hend hs

/-- Every run of the conversion stands for a part of a derivation. -/
theorem Reads.readAll {ts us : List Token} {s s' : State} (h : Reads ts s)
    (hs : Postfix.readAll s us = .ok s') : Reads (ts ++ us) s' := by
  induction us generalizing ts s with
  | nil =>
    cases hs
    simpa using h
  | cons t us ih =>
    obtain ⟨s₁, hstep, hs⟩ := readAll_cons_eq_ok_iff.1 hs
    simpa using ih (h.step hstep) hs

/-- Tokens that are read from the start stand for a part of a derivation. -/
theorem reads_of_readAll {ts : List Token} {s : State} (h : readAll {} ts = .ok s) : Reads ts s :=
  (Reads.ready .start).readAll h

/-- What the conversion answers is the listing of a tree that the tokens derive. -/
theorem derives_of_ofInfix {ts listing : List Token} (h : ofInfix ts = .ok listing) :
    ∃ e, Derives .plain .sum ts e ∧ listing = e.listing := by
  obtain ⟨output, pending, hread, hb, rfl⟩ := ofInfix_eq_ok_iff_readAll.1 h
  obtain ⟨c, hend⟩ := (reads_of_readAll hread).exists_endsWith
  obtain ⟨ops, rest, rfl, -, -, before, operand, e, out, rfl, he, hopen, hout⟩ := hend.grow_sum
  obtain ⟨rfl, rfl, rfl⟩ := hopen.eq_start fun x hx => hb x (by simp [hx])
  exact ⟨e, by simpa using he, by simp [hout]⟩

/-- The conversion answers the listing of every tree that the tokens derive. -/
theorem ofInfix_of_derives {ts : List Token} {e : Expr} (h : Derives .plain .sum ts e) :
    ofInfix ts = .ok e.listing := by
  obtain ⟨ops, out, hread, hlv, hout⟩ := readsAs_of_derives h [] [] (stops_nil _)
  refine ofInfix_eq_ok_iff_readAll.2 ⟨out, ops, ?_, isBracket_of_leaves_sum hlv, ?_⟩
  · simpa [State.ready] using hread
  · simp [hout]

/-- The postfix form is the listing of the tree that the grammar derives. -/
theorem ofInfix_eq_ok_iff {ts listing : List Token} :
    ofInfix ts = .ok listing ↔ ∃ e, Derives .plain .sum ts e ∧ listing = e.listing := by
  refine ⟨derives_of_ofInfix, ?_⟩
  rintro ⟨e, he, rfl⟩
  exact ofInfix_of_derives he

end Postfix

open Grammar

/-- The tree read from tokens is the one that the grammar derives. -/
theorem Expr.ofInfix_eq_ok_iff {ts : List Token} {e : Expr} :
    Expr.ofInfix ts = .ok e ↔ Derives .plain .sum ts e := by
  constructor
  · intro h
    cases hl : Postfix.ofInfix ts with
    | error fault => simp [Expr.ofInfix, hl, bind, Except.bind] at h
    | ok listing =>
      obtain ⟨e', he', rfl⟩ := Postfix.derives_of_ofInfix hl
      simp only [Expr.ofInfix, hl, bind, Except.bind, ofPostfix_listing he'.fits_of_plain] at h
      cases h
      exact he'
  · intro h
    simp [Expr.ofInfix, Postfix.ofInfix_of_derives h, bind, Except.bind,
      ofPostfix_listing h.fits_of_plain]

/-- The tree read from tokens is the fitting one whose listing is their postfix form. -/
theorem Expr.ofInfix_eq_ok_iff_listing {ts : List Token} {e : Expr} :
    Expr.ofInfix ts = .ok e ↔ Postfix.ofInfix ts = .ok e.listing ∧ e.Fits := by
  rw [Expr.ofInfix_eq_ok_iff]
  constructor
  · intro h
    exact ⟨Postfix.ofInfix_of_derives h, h.fits_of_plain⟩
  · rintro ⟨h, hfits⟩
    obtain ⟨e', he', hlisting⟩ := Postfix.derives_of_ofInfix h
    rwa [eq_of_listing_eq hfits he'.fits_of_plain hlisting]

/-- Tokens have a tree exactly if they have a postfix form. -/
theorem Expr.exists_ofInfix_iff {ts : List Token} :
    (∃ e, Expr.ofInfix ts = .ok e) ↔ ∃ listing, Postfix.ofInfix ts = .ok listing := by
  constructor
  · rintro ⟨e, he⟩
    exact ⟨_, (Expr.ofInfix_eq_ok_iff_listing.1 he).1⟩
  · rintro ⟨listing, h⟩
    obtain ⟨e, he, -⟩ := Postfix.derives_of_ofInfix h
    exact ⟨e, Expr.ofInfix_eq_ok_iff.2 he⟩

/--
Parsing accepts exactly the tokens of a sum and answers the tree of its derivation. Nothing is lost
between the two steps: whatever the conversion to postfix answers is read as that tree.
-/
theorem parse_eq_ok_iff_derives (ts : List Token) :
    (∀ e, Expr.ofInfix ts = .ok e ↔ Derives .plain .sum ts e) ∧
      ∀ listing, Postfix.ofInfix ts = .ok listing ↔
        ∃ e, Derives .plain .sum ts e ∧ Expr.ofPostfix listing = .ok e ∧ listing = e.listing := by
  refine ⟨fun e => Expr.ofInfix_eq_ok_iff, fun listing => ?_⟩
  rw [Postfix.ofInfix_eq_ok_iff]
  constructor
  · rintro ⟨e, he, rfl⟩
    exact ⟨e, he, Expr.ofPostfix_listing he.fits_of_plain, rfl⟩
  · rintro ⟨e, he, -, rfl⟩
    exact ⟨e, he, rfl⟩

end SciCalc
