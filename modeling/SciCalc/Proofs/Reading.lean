import SciCalc.Postfix

/-!
# Reading one token

What one token does to the state of the conversion, for each kind of state: before an operand,
behind one, and behind a function name. What waits on the stack is written as the operators that the
token releases, followed by what stops the release. Everything about whole runs is proved from these
equations and from `readAll_append`; nothing later opens the reader itself.
-/

set_option autoImplicit false

namespace SciCalc.Postfix

/-- A sequence ends well where both parts do. -/
theorem bind_eq_ok_iff {ε α β : Type} {x : Except ε α} {f : α → Except ε β} {b : β} :
    x.bind f = .ok b ↔ ∃ a, x = .ok a ∧ f a = .ok b := by
  cases x with
  | error fault => simp [Except.bind]
  | ok a => simp [Except.bind]

/-- Joined tokens are read one part after the other. -/
theorem readAll_append (s : State) (ts us : List Token) :
    readAll s (ts ++ us) = (readAll s ts).bind fun s' => readAll s' us :=
  List.foldlM_append

/-- The first token is read before the others. -/
theorem readAll_cons (s : State) (t : Token) (ts : List Token) :
    readAll s (t :: ts) = (s.step t).bind fun s' => readAll s' ts := rfl

/-- Tokens behind others that are read well are read from the state those leave. -/
theorem readAll_append_of_ok {s s' : State} {ts : List Token} (h : readAll s ts = .ok s')
    (us : List Token) : readAll s (ts ++ us) = readAll s' us := by
  rw [readAll_append, h]
  rfl

/-- Tokens behind one that is read well are read from the state it leaves. -/
theorem readAll_cons_of_ok {s s' : State} {t : Token} (h : s.step t = .ok s') (ts : List Token) :
    readAll s (t :: ts) = readAll s' ts := by
  rw [readAll_cons, h]
  rfl

/-- Joined tokens are read well where the parts are, one after the other. -/
theorem readAll_append_eq_ok_iff {s s' : State} {ts us : List Token} :
    readAll s (ts ++ us) = .ok s' ↔ ∃ s₁, readAll s ts = .ok s₁ ∧ readAll s₁ us = .ok s' := by
  rw [readAll_append, bind_eq_ok_iff]

/-- Tokens are read well where the first one and the others are. -/
theorem readAll_cons_eq_ok_iff {s s' : State} {t : Token} {ts : List Token} :
    readAll s (t :: ts) = .ok s' ↔ ∃ s₁, s.step t = .ok s₁ ∧ readAll s₁ ts = .ok s' := by
  rw [readAll_cons, bind_eq_ok_iff]

/-- A single token is read by one step. -/
theorem readAll_singleton (s : State) (t : Token) : readAll s [t] = s.step t := by
  rw [readAll_cons]
  cases s.step t <;> rfl

/-! ## What waits -/

namespace Pending

/-- A bracket comes before no operator. -/
theorem isBracket_of_precedes {op : Operator} {p : Pending} (h : p.precedes op = true) :
    p.isBracket = false := by
  cases p with
  | operator _ => rfl
  | negation => rfl
  | bracket _ _ => simp [precedes] at h

/-- What comes before a product sign comes before a sum sign. -/
theorem precedes_add_of_multiply {p : Pending} (h : p.precedes .multiply = true) :
    p.precedes .add = true := by
  cases p with
  | operator op => cases op <;> simp_all [precedes, Operator.strength, Operator.groupsRight]
  | negation => rfl
  | bracket _ _ => simp [precedes] at h

/-- The two sum signs release the same. -/
theorem precedes_subtract : precedes .subtract = precedes .add := by
  funext p
  cases p <;> rfl

/-- The two product signs release the same. -/
theorem precedes_divide : precedes .divide = precedes .multiply := by
  funext p
  cases p <;> rfl

/-- A power sign releases nothing. -/
theorem precedes_raise (p : Pending) : p.precedes .raise = false := by
  cases p with
  | operator op => cases op <;> rfl
  | negation => rfl
  | bracket _ _ => rfl

end Pending

/-- Whatever releases by `p` stops at once. -/
def Stops (p : Pending → Bool) (pending : List Pending) : Prop :=
  ∀ x ∈ pending.head?, p x = false

/-- Nothing is released from an empty stack. -/
theorem stops_nil (p : Pending → Bool) : Stops p [] := by simp [Stops]

/-- The top of the stack says whether anything is released. -/
theorem stops_cons {p : Pending → Bool} {x : Pending} {pending : List Pending} :
    Stops p (x :: pending) ↔ p x = false := by simp [Stops]

/-- Exactly the front part is taken, if the rest stops. -/
theorem takeWhile_append_of_stops {p : Pending → Bool} {ops rest : List Pending}
    (hops : ∀ x ∈ ops, p x = true) (hrest : Stops p rest) :
    (ops ++ rest).takeWhile p = ops ∧ (ops ++ rest).dropWhile p = rest := by
  rw [List.takeWhile_append_of_pos hops, List.dropWhile_append_of_pos hops]
  cases rest with
  | nil => simp
  | cons x rest => simp [stops_cons.1 hrest]

/-- Every stack is what is taken from it and what the taking stops at. -/
theorem exists_append_of_stops (p : Pending → Bool) (pending : List Pending) :
    ∃ ops rest, pending = ops ++ rest ∧ (∀ x ∈ ops, p x = true) ∧ Stops p rest := by
  refine ⟨pending.takeWhile p, pending.dropWhile p, List.takeWhile_append_dropWhile.symm,
    List.all_eq_true.1 List.all_takeWhile, fun x hx => ?_⟩
  have hhead := List.head?_dropWhile_not p pending
  rw [Option.mem_def.1 hx] at hhead
  simpa using hhead

/-- The output once the operators are released. -/
def released (ops : List Pending) (output : List Token) : List Token :=
  (ops.map Pending.token).reverse ++ output

/-- Nothing released adds nothing to the output. -/
@[simp] theorem released_nil (output : List Token) : released [] output = output := rfl

/-- What is released one part after the other is released in that order. -/
theorem released_append (ops ops' : List Pending) (output : List Token) :
    released (ops ++ ops') output = released ops' (released ops output) := by
  simp [released]

/-- One operator is released on top of the output. -/
theorem released_singleton (p : Pending) (output : List Token) :
    released [p] output = p.token :: output := rfl

/-- What stands under the output stays there. -/
theorem released_append_output (ops : List Pending) (output output' : List Token) :
    released ops (output ++ output') = released ops output ++ output' := by
  simp [released]

namespace State

/-- The state before an operand. -/
def ready (output : List Token) (pending : List Pending) : State := { output, pending }

/-- The state behind an operand. -/
def filled (output : List Token) (pending : List Pending) : State :=
  { output, pending, afterValue := true }

/-- The state behind a function name. -/
def called (f : MathFunction) (output : List Token) (pending : List Pending) : State :=
  { output, pending, awaiting := some f }

/-- The operators in front of what stops the release are released. -/
theorem release_filled {p : Pending → Bool} {ops rest : List Pending} (output : List Token)
    (hops : ∀ x ∈ ops, p x = true) (hrest : Stops p rest) :
    (filled output (ops ++ rest)).release p = filled (released ops output) rest := by
  obtain ⟨htake, hdrop⟩ := takeWhile_append_of_stops hops hrest
  simp [release, filled, htake, hdrop, released]

/-- The innermost bracket is the first bracket of the stack. -/
theorem innermost?_filled {ops : List Pending} (h : ∀ x ∈ ops, x.isBracket = false)
    (output : List Token) (callee : Option MathFunction) (commas : Nat) (rest : List Pending) :
    (filled output (ops ++ .bracket callee commas :: rest)).innermost? = some (callee, commas) := by
  simp only [innermost?, filled]
  induction ops with
  | nil => rfl
  | cons x ops ih =>
    have hx := h x (by simp)
    cases x with
    | bracket _ _ => simp [Pending.isBracket] at hx
    | operator op => simpa using ih fun y hy => h y (by simp [hy])
    | negation => simpa using ih fun y hy => h y (by simp [hy])

/-- A stack without brackets has no innermost one. -/
theorem innermost?_filled_eq_none {ops : List Pending} (h : ∀ x ∈ ops, x.isBracket = false)
    (output : List Token) : (filled output ops).innermost? = none := by
  simp only [innermost?, filled, List.findSome?_eq_none_iff]
  intro x hx
  cases x with
  | bracket _ _ => simpa [Pending.isBracket] using h _ hx
  | operator op => rfl
  | negation => rfl

/-! ## Before an operand -/

variable (output : List Token) (pending : List Pending)

/-- A literal is an operand. -/
theorem step_ready_number (v : Float) :
    (ready output pending).step (.number v) = .ok (filled (.number v :: output) pending) := rfl

/-- The number π is an operand. -/
theorem step_ready_pi :
    (ready output pending).step .pi = .ok (filled (.pi :: output) pending) := rfl

/-- The last result is an operand. -/
theorem step_ready_answer :
    (ready output pending).step .answer = .ok (filled (.answer :: output) pending) := rfl

/-- A function name waits for its bracket. -/
theorem step_ready_function (f : MathFunction) :
    (ready output pending).step (.function f) = .ok (called f output pending) := rfl

/-- An opening bracket goes on the stack. -/
theorem step_ready_opening :
    (ready output pending).step .opening = .ok (ready output (.bracket none 0 :: pending)) := rfl

/-- A minus sign before an operand is a negation. -/
theorem step_ready_subtract :
    (ready output pending).step (.operator .subtract) = .ok (ready output (.negation :: pending)) :=
  rfl

/-- A plus sign before an operand is dropped. -/
theorem step_ready_add :
    (ready output pending).step (.operator .add) = .ok (ready output pending) := rfl

/-- The bracket behind a function name goes on the stack with the name. -/
theorem step_called_opening (f : MathFunction) :
    (called f output pending).step .opening = .ok (ready output (.bracket (some f) 0 :: pending)) :=
  rfl

/-- A call opens its bracket. -/
theorem readAll_call (f : MathFunction) (ts : List Token) :
    readAll (ready output pending) (.function f :: .opening :: ts) =
      readAll (ready output (.bracket (some f) 0 :: pending)) ts := by
  rw [readAll_cons_of_ok (step_ready_function output pending f),
    readAll_cons_of_ok (step_called_opening output pending f)]

/-! ## Behind an operand -/

variable {ops rest : List Pending}

/-- An operator releases what comes before it and waits. -/
theorem step_filled_operator {op : Operator} (hops : ∀ x ∈ ops, x.precedes op = true)
    (hrest : Stops (Pending.precedes op) rest) :
    (filled output (ops ++ rest)).step (.operator op) =
      .ok (ready (released ops output) (.operator op :: rest)) := by
  have hrelease := release_filled output hops hrest
  simp only [step, read, operator, filled, ready] at hrelease ⊢
  simp [hrelease]

/-- A power sign waits and releases nothing. -/
theorem step_filled_raise (pending : List Pending) :
    (filled output pending).step (.operator .raise) =
      .ok (ready output (.operator .raise :: pending)) := by
  have hstops : Stops (Pending.precedes .raise) pending := fun x _ => Pending.precedes_raise x
  exact @step_filled_operator output [] pending .raise (by simp) hstops

/-- What is no bracket is released up to the innermost bracket. -/
theorem releaseToBracket_filled (hops : ∀ x ∈ ops, x.isBracket = false)
    (hrest : Stops (fun x => !x.isBracket) rest) :
    (filled output (ops ++ rest)).releaseToBracket = filled (released ops output) rest :=
  release_filled output (by simpa using hops) hrest

/-- Releasing down to a bracket stops at one. -/
theorem stops_at_bracket (callee : Option MathFunction) (commas : Nat) (rest : List Pending) :
    Stops (fun x => !x.isBracket) (.bracket callee commas :: rest) := by
  simp [stops_cons, Pending.isBracket]

/-- A comma ends an argument and is counted. -/
theorem step_filled_comma (hops : ∀ x ∈ ops, x.isBracket = false) (f : MathFunction)
    (commas : Nat) (rest : List Pending) :
    (filled output (ops ++ .bracket (some f) commas :: rest)).step .comma =
      .ok (ready (released ops output) (.bracket (some f) (commas + 1) :: rest)) := by
  have hinner := innermost?_filled hops output (some f) commas rest
  have hrelease := releaseToBracket_filled output hops (stops_at_bracket (some f) commas rest)
  simp only [step, read, comma, filled, ready] at hinner hrelease ⊢
  simp [hinner, hrelease]

/-- A closing bracket of its own leaves its contents as an operand. -/
theorem step_filled_closing_bracket (hops : ∀ x ∈ ops, x.isBracket = false) (commas : Nat)
    (rest : List Pending) :
    (filled output (ops ++ .bracket none commas :: rest)).step .closing =
      .ok (filled (released ops output) rest) := by
  have hinner := innermost?_filled hops output none commas rest
  have hrelease := releaseToBracket_filled output hops (stops_at_bracket none commas rest)
  simp only [step, read, closing, filled] at hinner hrelease ⊢
  simp [hinner, hrelease]

/-- The closing bracket of a call leaves the call as an operand, if its arguments are right. -/
theorem step_filled_closing_call (hops : ∀ x ∈ ops, x.isBracket = false) (f : MathFunction)
    (commas : Nat) (rest : List Pending) :
    (filled output (ops ++ .bracket (some f) commas :: rest)).step .closing =
      if commas + 1 = f.arity then .ok (filled (.function f :: released ops output) rest)
      else .error (.wrongArity f (commas + 1)) := by
  have hinner := innermost?_filled hops output (some f) commas rest
  have hrelease := releaseToBracket_filled output hops (stops_at_bracket (some f) commas rest)
  simp only [step, read, closing, filled] at hinner hrelease ⊢
  simp [hinner, hrelease]

/-- Behind an operand the end releases all that waits. -/
theorem finish_filled (hops : ∀ x ∈ ops, x.isBracket = false) :
    (filled output ops).finish = .ok (released ops output).reverse := by
  have hany : ops.any Pending.isBracket = false := by simpa using hops
  simp [finish, filled, hany, released]

end State

/-! ## All that a step can do -/

/-- The steps of the reader that are no fault, one rule for each way a token can go on. -/
inductive Step : State → Token → State → Prop where
  | operand {t : Token} {output : List Token} {pending : List Pending} :
      (∃ v, t = .number v) ∨ t = .pi ∨ t = .answer →
      Step (.ready output pending) t (.filled (t :: output) pending)
  | function (f : MathFunction) (output : List Token) (pending : List Pending) :
      Step (.ready output pending) (.function f) (.called f output pending)
  | bracket (output : List Token) (pending : List Pending) :
      Step (.ready output pending) .opening (.ready output (.bracket none 0 :: pending))
  | call (f : MathFunction) (output : List Token) (pending : List Pending) :
      Step (.called f output pending) .opening (.ready output (.bracket (some f) 0 :: pending))
  | plus (output : List Token) (pending : List Pending) :
      Step (.ready output pending) (.operator .add) (.ready output pending)
  | minus (output : List Token) (pending : List Pending) :
      Step (.ready output pending) (.operator .subtract) (.ready output (.negation :: pending))
  | operator {op : Operator} {ops rest : List Pending} (output : List Token) :
      (∀ x ∈ ops, x.precedes op = true) → Stops (Pending.precedes op) rest →
      Step (.filled output (ops ++ rest)) (.operator op)
        (.ready (released ops output) (.operator op :: rest))
  | comma {ops : List Pending} (f : MathFunction) (commas : Nat) (output : List Token)
      (rest : List Pending) : (∀ x ∈ ops, x.isBracket = false) →
      Step (.filled output (ops ++ .bracket (some f) commas :: rest)) .comma
        (.ready (released ops output) (.bracket (some f) (commas + 1) :: rest))
  | closeBracket {ops : List Pending} (commas : Nat) (output : List Token) (rest : List Pending) :
      (∀ x ∈ ops, x.isBracket = false) →
      Step (.filled output (ops ++ .bracket none commas :: rest)) .closing
        (.filled (released ops output) rest)
  | closeCall {ops : List Pending} {f : MathFunction} {commas : Nat} (output : List Token)
      (rest : List Pending) : (∀ x ∈ ops, x.isBracket = false) → commas + 1 = f.arity →
      Step (.filled output (ops ++ .bracket (some f) commas :: rest)) .closing
        (.filled (.function f :: released ops output) rest)

/-- What waits before the innermost bracket, the bracket, and what waits below it. -/
theorem exists_of_innermost? {s : State} {callee : Option MathFunction} {commas : Nat}
    (h : s.innermost? = some (callee, commas)) :
    ∃ ops rest, s.pending = ops ++ .bracket callee commas :: rest ∧
      ∀ x ∈ ops, x.isBracket = false := by
  simp only [State.innermost?] at h
  generalize s.pending = pending at h ⊢
  induction pending with
  | nil => simp at h
  | cons x pending ih =>
    cases x with
    | bracket c k =>
      simp only [List.findSome?_cons] at h
      cases h
      exact ⟨[], pending, rfl, by simp⟩
    | operator op =>
      obtain ⟨ops, rest, rfl, hops⟩ := ih (by simpa using h)
      exact ⟨.operator op :: ops, rest, rfl, by simpa using ⟨rfl, hops⟩⟩
    | negation =>
      obtain ⟨ops, rest, rfl, hops⟩ := ih (by simpa using h)
      exact ⟨.negation :: ops, rest, rfl, by simpa using ⟨rfl, hops⟩⟩

namespace State

/-- A comma behind an operand is refused unless the innermost bracket is that of a call. -/
theorem step_filled_comma_eq_error {output : List Token} {pending : List Pending}
    (h : ∀ f k, (filled output pending).innermost? ≠ some (some f, k)) :
    (filled output pending).step .comma = .error .commaOutsideCall := by
  simp only [step, read, filled] at h ⊢
  unfold comma
  split
  case h_1 f k hs => exact absurd hs (h f k)
  case h_2 => rfl

/-- A closing bracket behind an operand is refused where no bracket is open. -/
theorem step_filled_closing_eq_error {output : List Token} {pending : List Pending}
    (h : (filled output pending).innermost? = none) :
    (filled output pending).step .closing = .error .surplusClosing := by
  simp only [step, read, filled, closing] at h ⊢
  rw [h]

end State

/-- A token behind an operand that is read follows a rule. -/
theorem Step.of_step_filled {output : List Token} {pending : List Pending} {t : Token} {s : State}
    (h : (State.filled output pending).step t = .ok s) : Step (.filled output pending) t s := by
  cases t with
  | operator op =>
    obtain ⟨ops, rest, rfl, hops, hrest⟩ := exists_append_of_stops (Pending.precedes op) pending
    rw [State.step_filled_operator output hops hrest] at h
    cases h
    exact .operator output hops hrest
  | comma =>
    rcases hs : (State.filled output pending).innermost? with _ | ⟨_ | f, commas⟩
    · rw [State.step_filled_comma_eq_error (by simp [hs])] at h
      cases h
    · rw [State.step_filled_comma_eq_error (by simp [hs])] at h
      cases h
    · obtain ⟨ops, rest, hpending, hops⟩ := exists_of_innermost? hs
      simp only [State.filled] at hpending
      subst hpending
      rw [State.step_filled_comma output hops] at h
      cases h
      exact .comma f commas output rest hops
  | closing =>
    rcases hs : (State.filled output pending).innermost? with _ | ⟨callee, commas⟩
    · rw [State.step_filled_closing_eq_error hs] at h
      cases h
    obtain ⟨ops, rest, hpending, hops⟩ := exists_of_innermost? hs
    simp only [State.filled] at hpending
    subst hpending
    cases callee with
    | none =>
      rw [State.step_filled_closing_bracket output hops] at h
      cases h
      exact .closeBracket commas output rest hops
    | some f =>
      rw [State.step_filled_closing_call output hops] at h
      split at h
      case isTrue hlen =>
        cases h
        exact .closeCall output rest hops hlen
      case isFalse => cases h
  | number v => cases h
  | pi => cases h
  | answer => cases h
  | function f => cases h
  | opening => cases h
  | negate => cases h
  | percent => cases h
  | factorialMark => cases h
  | permutationMark => cases h
  | combinationMark => cases h
  | unknown text => cases h

/-- A token before an operand that is read follows a rule. -/
theorem Step.of_step_ready {output : List Token} {pending : List Pending} {t : Token} {s : State}
    (h : (State.ready output pending).step t = .ok s) : Step (.ready output pending) t s := by
  cases t with
  | number v =>
    cases h
    exact .operand (.inl ⟨v, rfl⟩)
  | pi =>
    cases h
    exact .operand (.inr (.inl rfl))
  | answer =>
    cases h
    exact .operand (.inr (.inr rfl))
  | function f =>
    cases h
    exact .function f output pending
  | opening =>
    cases h
    exact .bracket output pending
  | operator op =>
    cases op with
    | add =>
      cases h
      exact .plus output pending
    | subtract =>
      cases h
      exact .minus output pending
    | multiply => cases h
    | divide => cases h
    | raise => cases h
  | closing =>
    simp only [State.step, State.ready, State.read, State.closing] at h
    split at h <;> simp at h
  | comma =>
    simp only [State.step, State.ready, State.read, State.comma] at h
    split at h <;> simp at h
  | negate => cases h
  | percent => cases h
  | factorialMark => cases h
  | permutationMark => cases h
  | combinationMark => cases h
  | unknown text => cases h

/-- A step that is no fault follows one of the rules, and every rule is a step. -/
theorem step_eq_ok_iff {s s' : State} {t : Token} : s.step t = .ok s' ↔ Step s t s' := by
  constructor
  · intro h
    obtain ⟨output, pending, afterValue, awaiting⟩ := s
    cases awaiting with
    | none =>
      cases afterValue with
      | true => exact .of_step_filled h
      | false => exact .of_step_ready h
    | some f =>
      simp only [State.step] at h
      split at h
      case isFalse => cases h
      case isTrue ht =>
        subst ht
        cases afterValue with
        | true => cases h
        | false =>
          cases h
          exact .call f output pending
  · intro h
    cases h with
    | operand ht => rcases ht with ⟨v, rfl⟩ | rfl | rfl <;> rfl
    | function f output pending => rfl
    | bracket output pending => rfl
    | call f output pending => rfl
    | plus output pending => rfl
    | minus output pending => rfl
    | operator output hops hrest => exact State.step_filled_operator output hops hrest
    | comma f commas output rest hops => exact State.step_filled_comma output hops f commas rest
    | closeBracket commas output rest hops =>
      exact State.step_filled_closing_bracket output hops commas rest
    | closeCall output rest hops hlen =>
      rw [State.step_filled_closing_call output hops, if_pos hlen]

/-! ## The end of the input -/

/-- The conversion ends well behind an operand, if no bracket is open. -/
theorem State.finish_eq_ok_iff {s : State} {listing : List Token} :
    s.finish = .ok listing ↔ ∃ output ops, s = .filled output ops ∧
      (∀ x ∈ ops, x.isBracket = false) ∧ listing = (released ops output).reverse := by
  constructor
  · intro h
    obtain ⟨output, ops, afterValue, awaiting⟩ := s
    cases awaiting with
    | some f => cases h
    | none =>
      cases afterValue with
      | false => cases h
      | true =>
        have hany : ops.any Pending.isBracket = false := by
          cases hb : ops.any Pending.isBracket with
          | false => rfl
          | true => simp [State.finish, hb] at h
        have hops : ∀ x ∈ ops, x.isBracket = false := by simpa using hany
        have hfinish := State.finish_filled output hops
        refine ⟨output, ops, rfl, hops, ?_⟩
        rw [State.filled, h] at hfinish
        exact Except.ok.inj hfinish
  · rintro ⟨output, ops, rfl, hops, rfl⟩
    exact State.finish_filled output hops

/-- The conversion of tokens is reading them to the end. -/
theorem ofInfix_eq_bind {ts : List Token} (h : ts ≠ []) :
    ofInfix ts = (readAll {} ts).bind State.finish := if_neg h

/-- The conversion ends well where reading and ending do. -/
theorem ofInfix_eq_ok_iff_bind {ts listing : List Token} :
    ofInfix ts = .ok listing ↔ (readAll {} ts).bind State.finish = .ok listing := by
  cases ts with
  | nil =>
    constructor
    · intro h
      cases h
    · intro h
      cases h
  | cons t ts => rw [ofInfix_eq_bind (by simp)]

/-- A run to the end lists what is written and what waits behind the last operand. -/
theorem finish_readAll_eq_ok_iff {s : State} {ts listing : List Token} :
    (readAll s ts).bind State.finish = .ok listing ↔
      ∃ output ops, readAll s ts = .ok (.filled output ops) ∧
        (∀ x ∈ ops, x.isBracket = false) ∧ listing = (released ops output).reverse := by
  rw [bind_eq_ok_iff]
  constructor
  · rintro ⟨s', hread, hfinish⟩
    obtain ⟨output, ops, rfl, h⟩ := State.finish_eq_ok_iff.1 hfinish
    exact ⟨output, ops, hread, h⟩
  · rintro ⟨output, ops, hread, h⟩
    exact ⟨_, hread, State.finish_eq_ok_iff.2 ⟨output, ops, rfl, h⟩⟩

/-- The postfix form is what is written and what waits behind the last operand. -/
theorem ofInfix_eq_ok_iff_readAll {ts listing : List Token} :
    ofInfix ts = .ok listing ↔ ∃ output ops, readAll {} ts = .ok (.filled output ops) ∧
      (∀ x ∈ ops, x.isBracket = false) ∧ listing = (released ops output).reverse := by
  rw [ofInfix_eq_ok_iff_bind, finish_readAll_eq_ok_iff]

end SciCalc.Postfix
