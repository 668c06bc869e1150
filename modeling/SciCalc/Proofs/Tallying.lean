import SciCalc.Proofs.Unbracketing

/-!
# Counting literals and negations

A minus sign is read as a negation where an operand is awaited, and as a difference elsewhere. So
the tokens of a text tell how many literals and negations its tree has: of what the passes of the
preparation put in, only the hundred of a percent sign is one, and the reader writes each of them
once.
-/

set_option autoImplicit false

namespace SciCalc

namespace Token

/--
Whether the token is read as a literal or a negation. A percent sign is read as its hundred, and
text that is no token counts as a literal.
-/
def isPart (awaited : Bool) : Token → Bool
  | number _ | unknown _ | negate | percent => true
  | operator .subtract => awaited
  | _ => false

/-- How many literals and negations the tokens are read as, if an operand is awaited or not. -/
def parts : Bool → List Token → Nat
  | _, [] => 0
  | awaited, t :: ts => (t.isPart awaited).toNat + parts t.awaitsOperand ts

/-- What an operand starts with is no negation, whether an operand is awaited or not. -/
theorem parts_of_startsValue {t : Token} (h : t.startsValue = true) (awaited awaited' : Bool)
    (ts : List Token) : parts awaited (t :: ts) = parts awaited' (t :: ts) := by
  cases t <;> first | rfl | cases h

/-! ## Preparing -/

/-- Every percent sign becomes its hundred. -/
theorem parts_resolvePercent (awaited : Bool) (ts : List Token) :
    parts awaited (resolvePercent ts) = parts awaited ts := by
  fun_induction resolvePercent ts generalizing awaited with
  | case1 v ts ih => simp [hundredth, parts, isPart, awaitsOperand, ih]
  | case2 ts ih => simp [hundredth, parts, isPart, awaitsOperand, ih]
  | case3 ts _ ih => simp [parts, isPart, awaitsOperand, ih]
  | case4 t ts _ _ _ ih => rw [parts, parts, ih]
  | case5 => rfl

/-- Closing brackets bring nothing. -/
theorem parts_closeBrackets (awaited : Bool) (ts : List Token) :
    parts awaited (closeBrackets ts) = parts awaited ts := by
  have hclosings (awaited : Bool) (n : Nat) : parts awaited (List.replicate n closing) = 0 := by
    induction n generalizing awaited with
    | zero => rfl
    | succ n ih => simp [List.replicate_succ, parts, isPart, ih]
  have happend (ts : List Token) (n : Nat) :
      parts awaited (ts ++ List.replicate n closing) = parts awaited ts := by
    induction ts generalizing awaited with
    | nil => exact hclosings awaited n
    | cons t ts ih => rw [List.cons_append, parts, parts, ih]
  exact happend ts _

/-- Product signs bring nothing, and what follows them would not be a negation without them. -/
theorem parts_insertProducts (awaited : Bool) (ts : List Token) :
    parts awaited (insertProducts ts) = parts awaited ts := by
  fun_induction insertProducts ts generalizing awaited with
  | case1 a b ts hproduct ih =>
    have hb : b.startsValue = true := by
      simp only [juxtaposed, Bool.and_eq_true] at hproduct
      exact hproduct.1.2
    rw [parts, parts, parts, ih, parts_of_startsValue hb _ a.awaitsOperand]
    exact congrArg _ (Nat.zero_add _)
  | case2 a b ts _ ih => rw [parts, parts, ih]
  | case3 ts _ => rfl

/-- The call of one literal has the literal. -/
theorem parts_expandFactorials (awaited : Bool) (ts : List Token) :
    parts awaited (expandFactorials ts) = parts awaited ts := by
  fun_induction expandFactorials ts generalizing awaited with
  | case1 v ts ih => simp [callOne, parts, isPart, awaitsOperand, ih]
  | case2 t ts _ ih => rw [parts, parts, ih]
  | case3 => rfl

/-- The call of two literals has both. -/
theorem parts_expandBetween {mark : Token} (hawaits : mark.awaitsOperand = false)
    (hpart : mark.isPart false = false) (f : MathFunction) (awaited : Bool) (ts : List Token) :
    parts awaited (expandBetween mark f ts) = parts awaited ts := by
  fun_induction expandBetween mark f ts generalizing awaited with
  | case1 v w ts ih =>
    have hmark : parts false (mark :: number w :: ts) = parts false (number w :: ts) := by
      rw [parts, hpart, hawaits]
      exact Nat.zero_add _
    have hfirst : parts awaited (number v :: mark :: number w :: ts) =
        1 + parts false (mark :: number w :: ts) := rfl
    rw [hfirst, hmark]
    simp [callTwo, parts, isPart, awaitsOperand, ih]
  | case2 v t w ts _ ih => rw [parts, parts, ih]
  | case3 t ts _ ih => rw [parts, parts, ih]
  | case4 => rfl

/-- The tokens of the plain language are read as as many. -/
theorem parts_toPlain (awaited : Bool) (ts : List Token) :
    parts awaited (toPlain ts) = parts awaited ts := by
  rw [toPlain, expandMarks, parts_expandBetween rfl rfl, parts_expandBetween rfl rfl,
    parts_expandFactorials, parts_insertProducts, parts_closeBrackets, parts_resolvePercent]

end Token

/-! ## Reading -/

namespace Postfix

open Token (isPart)

/-- The literals and negations written, and the negations that wait. -/
def State.parts (s : State) : Nat := s.output.countP (isPart false) + s.pending.count .negation

/-- Released negations are written. -/
theorem countP_released (ops : List Pending) (output : List Token) :
    (released ops output).countP (isPart false) =
      output.countP (isPart false) + ops.count .negation := by
  have htoken : ∀ x ∈ ops, isPart false x.token = true ↔ x = .negation := by
    intro x _
    cases x with
    | operator op => cases op <;> simp [Pending.token, isPart]
    | negation => simp [Pending.token, isPart]
    | bracket _ _ => simp [Pending.token, isPart]
  rw [released, List.countP_append, List.countP_reverse, List.countP_map, List.count,
    Nat.add_comm]
  congr 1
  exact List.countP_congr fun x hx => by simpa using htoken x hx

/-- A step writes what its token is read as. -/
theorem Step.parts {s s' : State} {t : Token} (h : Step s t s') :
    s'.parts = s.parts + (t.isPart !s.afterValue).toNat := by
  cases h with
  | operand ht =>
    rcases ht with ⟨v, rfl⟩ | rfl | rfl
    · simp [State.parts, State.ready, State.filled, isPart, List.countP_cons]
      omega
    · simp [State.parts, State.ready, State.filled, isPart]
    · simp [State.parts, State.ready, State.filled, isPart]
  | minus output pending =>
    simp [State.parts, State.ready, isPart]
    omega
  | @operator op ops rest output hops hrest =>
    have hpart : isPart false (.operator op) = false := by cases op <;> rfl
    simp [State.parts, State.ready, State.filled, countP_released, hpart]
    omega
  | comma f commas output rest hops =>
    simp [State.parts, State.ready, State.filled, countP_released, isPart]
    omega
  | closeBracket commas output rest hops =>
    simp [State.parts, State.filled, countP_released, isPart]
    omega
  | closeCall output rest hops hlen =>
    simp [State.parts, State.filled, countP_released, isPart]
    omega
  | _ => simp [State.parts, State.ready, State.called, isPart]

/-- Whether the reader awaits an operand. -/
def State.awaitsOperand (s : State) : Bool := !s.afterValue && s.awaiting.isNone

/-- The reader awaits an operand behind a token that does. -/
theorem Step.awaitsOperand_eq {s s' : State} {t : Token} (h : Step s t s') :
    t.awaitsOperand = s'.awaitsOperand := by
  cases h with
  | operand ht => rcases ht with ⟨v, rfl⟩ | rfl | rfl <;> rfl
  | _ => rfl

/-- Where a bracket is awaited no minus sign is read. -/
theorem Step.eq_opening {s s' : State} {t : Token} (h : Step s t s')
    (hbracket : s.awaiting ≠ none) : t = .opening := by
  cases h with
  | call => rfl
  | _ => exact absurd rfl hbracket

/-- Reading writes what the tokens are read as. -/
theorem parts_of_readAll {s s' : State} {ts : List Token} (h : readAll s ts = .ok s') :
    s'.parts = s.parts + Token.parts s.awaitsOperand ts := by
  induction ts generalizing s with
  | nil =>
    cases h
    rfl
  | cons t ts ih =>
    obtain ⟨s₁, hstep, h⟩ := readAll_cons_eq_ok_iff.1 h
    have hrule := step_eq_ok_iff.1 hstep
    have hpart : isPart s.awaitsOperand t = isPart (!s.afterValue) t := by
      by_cases hbracket : s.awaiting = none
      · simp [State.awaitsOperand, hbracket]
      · rw [hrule.eq_opening hbracket]
        rfl
    rw [ih h, hrule.parts, Token.parts, hpart, hrule.awaitsOperand_eq, Nat.add_assoc]

/-- The postfix form has the literals and negations of the tokens. -/
theorem countP_of_ofInfix {ts listing : List Token} (h : ofInfix ts = .ok listing) :
    listing.countP (isPart false) = Token.parts true ts := by
  obtain ⟨output, ops, hread, -, rfl⟩ := ofInfix_eq_ok_iff_readAll.1 h
  have hparts := parts_of_readAll hread
  rw [List.countP_reverse, countP_released]
  simpa [State.parts, State.filled, State.awaitsOperand] using hparts

end Postfix

end SciCalc
