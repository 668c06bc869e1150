import Mathlib.Data.List.Basic
import SciCalc.Proofs.Breaking
import SciCalc.Proofs.Workings

/-!
# Texts that are refused

A text is malformed exactly if nothing is written in it or its prepared tokens are no sum of the
grammar, and the malformation is then the one that the conversion to postfix found. Text that is no
token is never lost on the way: no pass of the preparation touches it, and the grammar has no place
for it. A text that is accepted is never malformed afterwards. Its evaluation breaks off if it comes
to choosing nothing from `2 ^ 64` items in order. It can otherwise fail because a value is no finite
number, or, where it counts, because an operand is outside the domain.
-/

set_option autoImplicit false

namespace SciCalc

open Grammar

/-! ## Text that is no token -/

namespace Token

variable {text : String} {ts : List Token}

/-- Dividing percent signs loses no text that is no token. -/
theorem unknown_mem_resolvePercent (h : unknown text ∈ ts) : unknown text ∈ resolvePercent ts := by
  fun_induction resolvePercent ts with
  | case1 v ts ih => simp_all
  | case2 ts ih => simp_all
  | case3 ts _ ih => simp_all
  | case4 t ts _ _ _ ih => exact List.mem_cons.2 ((List.mem_cons.1 h).imp_right ih)
  | case5 => exact h

/-- Inserting products loses no text that is no token. -/
theorem unknown_mem_insertProducts (h : unknown text ∈ ts) : unknown text ∈ insertProducts ts := by
  fun_induction insertProducts ts with
  | case1 a b ts _ ih =>
    refine List.mem_cons.2 ((List.mem_cons.1 h).imp_right fun h => ?_)
    exact List.mem_cons_of_mem _ (ih h)
  | case2 a b ts _ ih => exact List.mem_cons.2 ((List.mem_cons.1 h).imp_right ih)
  | case3 ts _ => exact h

/-- Writing factorials out loses no text that is no token. -/
theorem unknown_mem_expandFactorials (h : unknown text ∈ ts) :
    unknown text ∈ expandFactorials ts := by
  fun_induction expandFactorials ts with
  | case1 v ts ih => simp_all
  | case2 t ts _ ih => exact List.mem_cons.2 ((List.mem_cons.1 h).imp_right ih)
  | case3 => exact h

/-- Writing out a mark between literals loses no text that is no token. -/
theorem unknown_mem_expandBetween {mark : Token} (f : MathFunction) (hmark : mark ≠ unknown text)
    (h : unknown text ∈ ts) : unknown text ∈ expandBetween mark f ts := by
  fun_induction expandBetween mark f ts with
  | case1 v w ts ih => simp_all [Ne.symm hmark]
  | case2 v t w ts _ ih => simp_all
  | case3 t ts _ ih => exact List.mem_cons.2 ((List.mem_cons.1 h).imp_right ih)
  | case4 => exact h

/-- Converting angles loses no text that is no token. -/
theorem unknown_mem_convertWithin {within : List Bool} (h : unknown text ∈ ts) :
    unknown text ∈ convertWithin within ts := by
  fun_induction convertWithin within ts with
  | case1 within f ts _ ih => simp_all
  | case2 within f ts _ ih => simp_all
  | case3 within ts ih => simp_all
  | case4 within ts ih => simp_all
  | case5 within ts _ ih => simp_all
  | case6 within t ts _ _ _ _ ih => exact List.mem_cons.2 ((List.mem_cons.1 h).imp_right ih)
  | case7 => exact h

/-- Text that is no token is still there once the tokens are prepared. -/
theorem unknown_mem_prepare (mode : AngleMode) (h : unknown text ∈ ts) :
    unknown text ∈ prepare mode ts := by
  have hclosed : unknown text ∈ closeBrackets (resolvePercent ts) :=
    List.mem_append_left _ (unknown_mem_resolvePercent h)
  have hplain : unknown text ∈ toPlain ts :=
    unknown_mem_expandBetween _ (by simp) (unknown_mem_expandBetween _ (by simp)
      (unknown_mem_expandFactorials (unknown_mem_insertProducts hclosed)))
  cases mode with
  | radians => exact hplain
  | degrees => exact unknown_mem_convertWithin hplain

end Token

/-- Tokens among which some text is no token have no tree. -/
theorem Grammar.not_derives_of_unknown {text : String} {ts : List Token}
    (h : Token.unknown text ∈ ts) (e : Expr) : ¬Derives .plain .sum ts e := by
  intro he
  exact (Expr.toPlain_of_ofInfix (Expr.ofInfix_eq_ok_iff.2 he)).1 _ h

/-! ## Faults of a value -/

/-- Whether a function counts: a factorial, permutations or combinations. -/
def MathFunction.counts : MathFunction → Bool
  | factorial | permutations | combinations => true
  | _ => false

namespace Expr

mutual

/-- Whether a counting function is called anywhere in the tree. -/
def counts : Expr → Bool
  | number _ => false
  | pi => false
  | answer => false
  | negate e => e.counts
  | binary _ l r => l.counts || r.counts
  | call f args => f.counts || countsAny args

/-- Whether a counting function is called anywhere in the trees. -/
def countsAny : List Expr → Bool
  | [] => false
  | e :: es => e.counts || countsAny es

end

end Expr

/-- The fault is that of a value: no finite number, or, where it may be, outside a domain. -/
def Fault.OfValue (counts : Bool) : Fault → Prop
  | malformed _ => False
  | outOfDomain _ => counts = true
  | numeric _ => True

/-- A value, or the fault of one. -/
def Settles {α : Type} (counts : Bool) (outcome : Except Fault α) : Prop :=
  FailsOnly (Fault.OfValue counts) outcome

namespace Settles

variable {α : Type} {counts : Bool}

/-- A numeric fault is that of a value. -/
theorem ofValue_numeric (cause : NumericFault) (_ : cause ≠ .wordOverflow) :
    (Fault.numeric cause).OfValue counts := trivial

/-- What may count may also not count. -/
theorem mono {counts' : Bool} {outcome : Except Fault α} (h : Settles counts outcome)
    (hcounts : counts = true → counts' = true) : Settles counts' outcome := by
  refine FailsOnly.mono h fun fault hvalue => ?_
  cases fault with
  | malformed _ => exact hvalue
  | outOfDomain _ => exact hcounts hvalue
  | numeric _ => trivial

/-- A function with all its arguments gives a value or the fault of one. -/
theorem apply {f : MathFunction} {vs : List Float} (h : vs.length = f.arity) :
    Settles f.counts (f.apply vs) := by
  have hdomain (cause : DomainFault) : (Fault.outOfDomain cause).OfValue true := rfl
  cases f with
  | factorial =>
    obtain ⟨n, rfl⟩ := List.length_eq_one_iff.1 h
    exact FailsOnly.factorial ofValue_numeric hdomain n
  | permutations =>
    obtain ⟨n, r, rfl⟩ := List.length_eq_two.1 h
    exact FailsOnly.permutations ofValue_numeric hdomain trivial n r
  | combinations =>
    obtain ⟨n, r, rfl⟩ := List.length_eq_two.1 h
    exact FailsOnly.combinations ofValue_numeric hdomain n r
  | _ =>
    obtain ⟨x, rfl⟩ := List.length_eq_one_iff.1 h
    exact FailsOnly.finite ofValue_numeric _ _

end Settles

namespace Expr

mutual

/-- A tree that fits has a value or the fault of one. -/
theorem settles_value (lastResult : Float) (e : Expr) (h : e.Fits) :
    Settles e.counts (value lastResult e) := by
  match e with
  | number v => exact .finite Settles.ofValue_numeric _ _
  | pi => exact .ok _
  | answer => exact .ok _
  | negate e =>
    rw [value]
    exact .bind (settles_value lastResult e h) fun a _ => .ok _
  | binary op l r =>
    rw [value]
    refine .bind ((settles_value lastResult l h.1).mono ?_) fun a _ => ?_
    · intro hcounts
      simp [counts, hcounts]
    · refine .bind ((settles_value lastResult r h.2).mono ?_) fun b _ =>
        .operator Settles.ofValue_numeric _ _ _
      intro hcounts
      simp [counts, hcounts]
  | call f args =>
    rw [value]
    refine .bind ((settles_valueAll lastResult args h.2).mono ?_) fun vs hvs => ?_
    · intro hcounts
      simp [counts, hcounts]
    · have hlength : vs.length = f.arity := by rw [← length_of_valueAll _ _ hvs, h.1]
      refine (Settles.apply hlength).mono fun hcounts => ?_
      simp [counts, hcounts]

/-- Trees that fit have values or the fault of one. -/
theorem settles_valueAll (lastResult : Float) (es : List Expr) (h : FitsAll es) :
    Settles (countsAny es) (valueAll lastResult es) := by
  match es with
  | [] => exact .ok _
  | e :: es =>
    rw [valueAll]
    refine .bind ((settles_value lastResult e h.1).mono ?_) fun a _ => ?_
    · intro hcounts
      simp [countsAny, hcounts]
    · refine .bind ((settles_valueAll lastResult es h.2).mono ?_) fun as _ => .ok _
      intro hcounts
      simp [countsAny, hcounts]

end

end Expr

/-! ## Malformations of the conversion -/

/-- The malformation is one that reading infix tokens finds, and no later step. -/
def Malformation.OfReading : Malformation → Prop
  | invalidPostfix | notPostfix _ | argumentMissing _ | valueMissing | unexpectedLeaf | notPair _ =>
    False
  | _ => True

/-- The malformation is one that reading finds at a token, and not at the end of all tokens. -/
def Malformation.OfToken : Malformation → Prop
  | emptyInput | argumentsMissing _ | incomplete | unclosed => False
  | m => m.OfReading

/-- What is found at a token is found in reading. -/
theorem Malformation.OfToken.ofReading {m : Malformation} (h : m.OfToken) : m.OfReading := by
  cases m <;> simp_all [OfToken, OfReading]

namespace Postfix

variable {s : State} {ts : List Token} {m : Malformation}

/-- A token is refused for what it brings. -/
theorem State.ofToken_of_step {t : Token} (h : s.step t = .error m) : m.OfToken := by
  have hread (h : s.read t = .error m) : m.OfToken := by
    cases t with
    | operator op =>
      simp only [read, operator] at h
      grind [Malformation.OfToken, Malformation.OfReading]
    | comma =>
      simp only [read, comma] at h
      grind [Malformation.OfToken, Malformation.OfReading]
    | closing =>
      simp only [read, closing] at h
      grind [Malformation.OfToken, Malformation.OfReading]
    | _ =>
      simp only [read, operand, callee, opening] at h
      grind [Malformation.OfToken, Malformation.OfReading]
  rw [step] at h
  split at h
  · simp only [opening] at h
    grind [Malformation.OfToken, Malformation.OfReading]
  · exact hread h

/-- Tokens are refused for what one of them brings. -/
theorem ofToken_of_readAll (h : readAll s ts = .error m) : m.OfToken := by
  induction ts generalizing s with
  | nil => cases h
  | cons t ts ih =>
    rw [readAll, List.foldlM_cons] at h
    rcases hstep : s.step t with fault | s'
    · rw [hstep] at h
      cases h
      exact State.ofToken_of_step hstep
    · rw [hstep] at h
      exact ih h

/-- The conversion refuses only for what it reads. -/
theorem ofReading_of_ofInfix (h : ofInfix ts = .error m) : m.OfReading := by
  rw [ofInfix] at h
  split at h
  · cases h
    trivial
  · rcases hread : readAll {} ts with fault | s
    · rw [hread] at h
      cases h
      exact (ofToken_of_readAll hread).ofReading
    · rw [hread] at h
      have hfinish : s.finish = .error m := h
      simp only [State.finish] at hfinish
      grind [Malformation.OfReading]

end Postfix

/-! ## What an evaluation refuses -/

section

variable {source : String} {context : Context}

/-- The tokens of a text as the conversion to postfix gets them. -/
def preparedTokens (source : String) (context : Context) : List Token :=
  (Preparation.ofText context.angles (Text.trim source)).inRadians

/-- The tree of a text is that of its prepared tokens. -/
theorem ofText_eq_ofInfix_prepared :
    Expr.ofText context.angles source = Expr.ofInfix (preparedTokens source context) := by
  rw [preparedTokens, Token.inRadians_ofText, Token.lex_trim, Expr.ofText]

/-- A text that has a tree is evaluated by settling the value of the tree. -/
theorem evaluate_of_derives {e : Expr} (h : Derives .plain .sum (preparedTokens source context) e) :
    evaluate source context = (e.value context.lastResult).map context.rounding.settle := by
  rw [evaluate_eq, rawValue, ofText_eq_ofInfix_prepared, Expr.ofInfix_eq_ok_iff.2 h]
  exact congrArg (Except.map _) (Expr.eval_eq_value _ e)

/-- A text that has no tree is refused as the conversion refuses it, or because it is empty. -/
theorem evaluate_of_not_derives
    (h : ∀ e, ¬Derives .plain .sum (preparedTokens source context) e) :
    ∃ m, evaluate source context = .error (.malformed m) ∧
      Postfix.ofInfix (preparedTokens source context) = .error m := by
  rcases hlisting : Postfix.ofInfix (preparedTokens source context) with m | listing
  · refine ⟨m, ?_, rfl⟩
    rw [evaluate_eq, rawValue, ofText_eq_ofInfix_prepared, Expr.ofInfix, hlisting]
    rfl
  · obtain ⟨e, he, -⟩ := Postfix.ofInfix_eq_ok_iff.1 hlisting
    exact absurd he (h e)

/-- A text that has a tree fails as the value of the tree does. -/
theorem evaluate_eq_error_iff {e : Expr} {fault : Fault}
    (h : Derives .plain .sum (preparedTokens source context) e) :
    evaluate source context = .error fault ↔ e.value context.lastResult = .error fault := by
  rw [evaluate_of_derives h]
  cases e.value context.lastResult <;> simp [Except.map]

/-- A text that has a tree has a value or the fault of one. -/
theorem settles_evaluate {e : Expr} (h : Derives .plain .sum (preparedTokens source context) e) :
    Settles e.counts (evaluate source context) := by
  intro fault hfault
  exact e.settles_value context.lastResult h.fits_of_plain _ ((evaluate_eq_error_iff h).1 hfault)

end

/--
A text is malformed exactly if it is blank or its prepared tokens have no tree. So it is wherever
some of it is no token. The malformation is always one that the conversion to postfix found among
the prepared tokens, so neither the reading of the postfix form nor the evaluation has any of its
own. A text that has a tree is evaluated by the tree. The evaluation breaks off exactly if it comes
to choosing nothing from `2 ^ 64` items in order. Otherwise it fails only because a number is not
finite or, if a counting function is called in the tree, because an operand is outside a domain.
-/
theorem evaluate_malformed_iff_no_tree (source : String) (context : Context) :
    ((∃ m, evaluate source context = .error (.malformed m)) ↔
        Text.trim source = "" ∨ ∀ e, ¬Derives .plain .sum (preparedTokens source context) e) ∧
      (∀ text, .unknown text ∈ (Preparation.ofText context.angles (Text.trim source)).lexed →
        ∃ m, evaluate source context = .error (.malformed m)) ∧
      (∀ m, evaluate source context = .error (.malformed m) →
        Postfix.ofInfix (preparedTokens source context) = .error m ∧ m.OfReading) ∧
      ∀ e, Derives .plain .sum (preparedTokens source context) e →
        evaluate source context = (e.value context.lastResult).map context.rounding.settle ∧
          (evaluate source context = .error (.numeric .wordOverflow) ↔
            e.BreaksOff context.lastResult) ∧
          (¬e.BreaksOff context.lastResult →
            ∀ fault, evaluate source context = .error fault → fault.IsReported ∧
              ((∃ cause, fault = .numeric cause) ∨
                (∃ cause, fault = .outOfDomain cause) ∧ e.counts = true)) := by
  have hnever {m : Malformation} {e : Expr} (h : evaluate source context = .error (.malformed m))
      (he : Derives .plain .sum (preparedTokens source context) e) : False :=
    settles_evaluate he _ h
  have hblank (h : Text.trim source = "") (e : Expr) :
      ¬Derives .plain .sum (preparedTokens source context) e := by
    intro he
    have hempty : Postfix.ofInfix (preparedTokens source context) = .error .emptyInput := by
      rw [preparedTokens, h]
      cases context.angles <;> rfl
    rw [Postfix.ofInfix_of_derives he] at hempty
    cases hempty
  refine ⟨⟨fun ⟨m, hm⟩ => .inr fun e he => hnever hm he, ?_⟩, ?_, ?_, ?_⟩
  · intro h
    have hnone : ∀ e, ¬Derives .plain .sum (preparedTokens source context) e := h.elim hblank id
    obtain ⟨m, hm, -⟩ := evaluate_of_not_derives hnone
    exact ⟨m, hm⟩
  · intro text htext
    have hprepared : Token.unknown text ∈ preparedTokens source context :=
      Token.unknown_mem_prepare context.angles htext
    obtain ⟨m, hm, -⟩ := evaluate_of_not_derives (not_derives_of_unknown hprepared)
    exact ⟨m, hm⟩
  · intro m hm
    obtain ⟨m', hm', hreading⟩ := evaluate_of_not_derives fun e he => hnever hm he
    cases hm.symm.trans hm'
    exact ⟨hreading, Postfix.ofReading_of_ofInfix hreading⟩
  · intro e he
    have hbreaks := (evaluate_eq_error_iff he).trans (e.value_eq_wordOverflow_iff _)
    refine ⟨evaluate_of_derives he, hbreaks, fun hreaches fault hfault => ⟨?_, ?_⟩⟩
    · rintro rfl
      exact hreaches (hbreaks.1 hfault)
    have hvalue := settles_evaluate he fault hfault
    cases fault with
    | malformed _ => exact hvalue.elim
    | outOfDomain cause => exact .inr ⟨⟨cause, rfl⟩, hvalue⟩
    | numeric cause => exact .inl ⟨cause, rfl⟩

/--
A word that is no function is refused. The factorial of a half has a tree and is counted outside its
domain.
-/
theorem evaluate_malformed_iff_no_tree_half_factorial :
    let half : Expr := .call .factorial [.number 0.5]
    let fault : Fault := .outOfDomain (.notNatural .factorial 0.5)
    .unknown "foo" ∈ (Preparation.ofText .radians (Text.trim "2+foo(3)")).lexed ∧
      (∃ m, evaluate "2+foo(3)" {} = .error (.malformed m)) ∧
      Derives .plain .sum (preparedTokens "0.5!" {}) half ∧
      evaluate "0.5!" {} = .error fault ∧ fault.IsReported ∧
      ((∃ cause, fault = .numeric cause) ∨
        (∃ cause, fault = .outOfDomain cause) ∧ half.counts = true) := by
  intro half fault
  have hunknown : .unknown "foo" ∈ (Preparation.ofText .radians (Text.trim "2+foo(3)")).lexed := by
    decide +kernel
  have hprepared : preparedTokens "0.5!" {} =
      [.function .factorial, .opening, .number 0.5, .closing] := by
    decide +kernel
  have htree : Derives .plain .sum (preparedTokens "0.5!" {}) half := by
    rw [hprepared, ← Expr.ofInfix_eq_ok_iff]
    rfl
  have hfault : evaluate "0.5!" {} = .error fault := by decide +kernel
  have hreaches : ¬half.BreaksOff 0 := by simp [half, Expr.BreaksOff, Expr.AnyBreaksOff]
  have hmalformed := (evaluate_malformed_iff_no_tree "2+foo(3)" {}).2.1 "foo" hunknown
  exact ⟨hunknown, hmalformed, htree, hfault,
    ((evaluate_malformed_iff_no_tree "0.5!" {}).2.2.2 half htree).2.2 hreaches fault hfault⟩

/-- A text with a tree can break off: nothing is chosen in order from `2 ^ 64` items. -/
theorem evaluate_breaks_off_permutations_of_largest :
    ¬∀ (source : String) (context : Context) (e : Expr),
      Derives .plain .sum (preparedTokens source context) e →
        ∀ fault, evaluate source context = .error fault → fault.IsReported := by
  intro h
  have hprepared : preparedTokens "18446744073709551616P0" {} = [.function .permutations, .opening,
      .number 18446744073709551616, .comma, .number 0, .closing] := by
    decide +kernel
  have htree : Derives .plain .sum (preparedTokens "18446744073709551616P0" {})
      (.call .permutations [.number 18446744073709551616, .number 0]) := by
    rw [hprepared, ← Expr.ofInfix_eq_ok_iff]
    rfl
  have hfault : evaluate "18446744073709551616P0" {} = .error (.numeric .wordOverflow) := by
    decide +kernel
  exact h _ _ _ htree _ hfault rfl

end SciCalc
