import SciCalc.Proofs.Framing
import SciCalc.Proofs.Rejections

/-!
# Every bracket closes

The prepared tokens of a text match, or one of them closes a bracket that is not open. Missing
closing brackets are added by count alone, but where every closing bracket has its partner the count
is that of the open ones, and the passes behind open and close brackets in pairs. Where a closing
bracket has no partner none of the passes gives it one, and the conversion stops at it or before it.
So the conversion never comes to the end of the tokens with a bracket still open, and the fault of
unclosed brackets, which alone has its wording, never appears.
-/

set_option autoImplicit false

namespace SciCalc

open Grammar

namespace Token

/-- Closing brackets for all that is open leave nothing open. -/
theorem depthAfter_replicate_closing (n : Nat) :
    depthAfter n (List.replicate n closing) = some 0 := by
  induction n with
  | zero => rfl
  | succ n ih => exact ih

/-- The prepared tokens match, or one of them closes a bracket that is not open. -/
theorem matched_prepare_or (mode : AngleMode) (ts : List Token) :
    Matched (prepare mode ts) ∨ depthAfter 0 (prepare mode ts) = none := by
  rcases hdepth : depthAfter 0 ts with _ | m
  · exact .inr (depthAfter_prepare_eq_none mode hdepth)
  · left
    have hplain : Matched (toPlain ts) := by
      rw [Matched, toPlain_of_depthAfter hdepth, depthAfter_append, depthAfter_writeOut, hdepth]
      exact depthAfter_replicate_closing m
    cases mode with
    | radians => exact hplain
    | degrees => exact hplain.convertWithin

end Token

/-! ## The conversion -/

namespace Postfix

open Token (depthAfter Matched)

/-- Behind matching tokens no bracket waits. -/
theorem State.any_isBracket_of_readAll {s : State} {ts : List Token} (hts : Matched ts)
    (h : readAll {} ts = .ok s) : s.pending.any Pending.isBracket = false := by
  have hdepth : s.depth = 0 := by
    have hdepth := depthAfter_of_readAll h
    rw [hts] at hdepth
    exact (Option.some.inj hdepth).symm
  rw [State.depth, List.countP_eq_zero] at hdepth
  simpa using hdepth

/-- Matching tokens are not refused for a bracket that stays open. -/
theorem ofInfix_ne_unclosed {ts : List Token} (hts : Matched ts) :
    ofInfix ts ≠ .error .unclosed := by
  intro h
  by_cases hnil : ts = []
  · rw [ofInfix, if_pos hnil] at h
    cases h
  rw [ofInfix_eq_bind hnil] at h
  rcases hread : readAll {} ts with m | s
  · rw [hread] at h
    cases h
    exact ofToken_of_readAll hread
  · rw [hread] at h
    have hfinish : s.finish = .error .unclosed := h
    rw [State.finish, State.any_isBracket_of_readAll hts hread] at hfinish
    grind

/-- Where a closing bracket has no partner, the conversion stops at a token. -/
theorem exists_error_of_depthAfter {ts : List Token} (h : depthAfter 0 ts = none) :
    ∃ m, readAll {} ts = .error m ∧ ofInfix ts = .error m := by
  have hnil : ts ≠ [] := by
    rintro rfl
    cases h
  rcases hread : readAll {} ts with m | s
  · refine ⟨m, rfl, ?_⟩
    rw [ofInfix_eq_bind hnil, hread]
    rfl
  · rw [depthAfter_of_readAll hread] at h
    cases h

end Postfix

/-! ## Wording -/

/-- The text begins, and not as the name of the brackets does. -/
def BeginsApart (s : String) : Prop := ∃ c, s.toList.head? = some c ∧ c ≠ 'p'

/-- What stands behind does not change how a text begins. -/
theorem BeginsApart.append {s : String} (h : BeginsApart s) (t : String) :
    BeginsApart (s ++ t) := by
  obtain ⟨c, hs, hc⟩ := h
  refine ⟨c, ?_, hc⟩
  rw [String.toList_append, List.head?_append, hs]
  rfl

/-- No name of a function begins as that of the brackets does. -/
theorem MathFunction.beginsApart_name (f : MathFunction) : BeginsApart f.name := by
  cases f <;> exact ⟨_, rfl, by decide⟩

/-- The wording of any other malformation begins apart, but for that of a surplus bracket. -/
theorem Malformation.beginsApart_message {m : Malformation} (hunclosed : m ≠ .unclosed)
    (hsurplus : m ≠ .surplusClosing) : BeginsApart m.message := by
  have hfixed {s : String} {c : Char} (h : s.toList.head? = some c) (hc : c ≠ 'p') :
      BeginsApart s := ⟨c, h, hc⟩
  have hoperand : BeginsApart "opérande manquante avant '" := hfixed rfl (by decide)
  cases m with
  | unclosed => exact absurd rfl hunclosed
  | surplusClosing => exact absurd rfl hsurplus
  | bracketMissing f => exact f.beginsApart_name.append _
  | wrongArity f n =>
    exact (((f.beginsApart_name.append _).append _).append _).append _
  | argumentsMissing f => exact f.beginsApart_name.append _
  | argumentMissing f => exact f.beginsApart_name.append _
  | operatorMissing t =>
    have hoperator : BeginsApart "opérateur manquant avant " := hfixed rfl (by decide)
    cases t with
    | opening => exact hfixed rfl (by decide)
    | _ => exact hoperator.append _
  | operandMissing t => exact (hoperand.append _).append _
  | strayMark t => exact ((hfixed (s := "'") rfl (by decide)).append _).append _
  | unknownText s => exact (hfixed (s := "jeton inconnu : ") rfl (by decide)).append _
  | notPostfix t => exact (hfixed (s := "jeton inattendu en RPN : ") rfl (by decide)).append _
  | notPair s =>
    exact ((hfixed (s := "x√y attend « x,y », reçu « ") rfl (by decide)).append _).append _
  | _ => exact hfixed rfl (by decide)

/-- Only the fault of unclosed brackets has its wording. -/
theorem Fault.message_eq_unclosed_iff {fault : Fault} :
    fault.message = "erreur de syntaxe : parenthèses non fermées" ↔
      fault = .malformed .unclosed := by
  have htext : "erreur de syntaxe : parenthèses non fermées" =
      "erreur de syntaxe : " ++ "parenthèses non fermées" := rfl
  refine ⟨fun h => ?_, fun h => by rw [h]; exact htext.symm⟩
  cases fault with
  | malformed m =>
    have hmessage : m.message = "parenthèses non fermées" :=
      (String.append_right_inj _).1 (Eq.trans (b := message (malformed m)) rfl (h.trans htext))
    by_cases hunclosed : m = .unclosed
    · rw [hunclosed]
    by_cases hsurplus : m = .surplusClosing
    · rw [hsurplus] at hmessage
      exact absurd hmessage (by decide)
    · obtain ⟨c, hc, hother⟩ := Malformation.beginsApart_message hunclosed hsurplus
      rw [hmessage] at hc
      exact absurd (Option.some.inj hc).symm hother
  | outOfDomain cause =>
    have h : "hors domaine : " ++ cause.message = _ := h
    have h := congrArg String.toList h
    simp at h
  | numeric cause =>
    cases cause with
    | wordOverflow => exact absurd h (by decide)
    | _ =>
      have h : "erreur numérique : " ++ NumericFault.message _ = _ := h
      have h := congrArg String.toList h
      simp at h

/-! ## Texts -/

/-- A text that is refused as malformed is refused by the conversion of its prepared tokens. -/
theorem ofInfix_of_evaluate_malformed {source : String} {context : Context} {m : Malformation}
    (h : evaluate source context = .error (.malformed m)) :
    Postfix.ofInfix (preparedTokens source context) = .error m := by
  have hnone (e : Expr) : ¬Derives .plain .sum (preparedTokens source context) e :=
    fun he => settles_evaluate he _ h
  obtain ⟨m', hm', hinfix⟩ := evaluate_of_not_derives hnone
  rw [h] at hm'
  cases hm'
  exact hinfix

/--
No text is refused for brackets that stay open, whatever brackets are missing, surplus or in the
wrong order. The prepared tokens of a text close every bracket that they open and no other, or the
conversion stops at one of them for another reason, which is then the fault of the evaluation.
-/
theorem evaluate_never_unclosed (source : String) (context : Context) :
    (∀ fault, evaluate source context = .error fault →
        fault.message ≠ "erreur de syntaxe : parenthèses non fermées") ∧
      (Token.Matched (preparedTokens source context) ∨
        ∃ m, m ≠ .unclosed ∧ Postfix.readAll {} (preparedTokens source context) = .error m ∧
          evaluate source context = .error (.malformed m)) := by
  have hprepared : preparedTokens source context =
      Token.prepare context.angles (Token.lex (Text.trim source)) := Token.inRadians_ofText _ _
  have hcases := Token.matched_prepare_or context.angles (Token.lex (Text.trim source))
  rw [← hprepared] at hcases
  have hstops (hlost : Token.depthAfter 0 (preparedTokens source context) = none) :
      ∃ m, m ≠ .unclosed ∧ Postfix.readAll {} (preparedTokens source context) = .error m ∧
        evaluate source context = .error (.malformed m) := by
    obtain ⟨m, hread, hrefused⟩ := Postfix.exists_error_of_depthAfter hlost
    have hnone (e : Expr) : ¬Derives .plain .sum (preparedTokens source context) e := by
      intro he
      rw [Postfix.ofInfix_of_derives he] at hrefused
      cases hrefused
    obtain ⟨m', hm', hsecond⟩ := evaluate_of_not_derives hnone
    rw [hrefused] at hsecond
    cases hsecond
    refine ⟨m, ?_, hread, hm'⟩
    rintro rfl
    exact Postfix.ofToken_of_readAll hread
  refine ⟨fun fault hfault hmessage => ?_, hcases.imp id hstops⟩
  rw [Fault.message_eq_unclosed_iff.1 hmessage] at hfault
  rcases hcases with hmatched | hlost
  · exact Postfix.ofInfix_ne_unclosed hmatched (ofInfix_of_evaluate_malformed hfault)
  · obtain ⟨m, hm, -, hevaluate⟩ := hstops hlost
    rw [hfault] at hevaluate
    cases hevaluate
    exact hm rfl

/-- The count lacks no closing bracket here, but the first one closes nothing. -/
example : evaluate "1)+sin(2" {} = .error (.malformed .surplusClosing) := by decide +kernel

end SciCalc
