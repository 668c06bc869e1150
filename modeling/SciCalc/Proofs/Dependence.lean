import SciCalc.Proofs.Unbracketing

/-!
# What an evaluation depends on

An evaluation reads of its context how results are rounded and, where the text mentions them, the
last result and the angle mode. A tree without a leaf for the last result has the same value for
every last result, and such a leaf comes from a token of the text: the passes of the preparation put
in no token for the last result, and the conversion to postfix writes nothing but what it has read
and negations. Where no function takes an angle, both modes prepare the same tokens. So two contexts
which agree on what the text mentions give the same answer. The memory is never read.
-/

set_option autoImplicit false

namespace SciCalc

/-! ## Trees without the last result -/

namespace Expr

variable {lastResult lastResult' : Float}

mutual

/-- A tree without the last result has the same value whatever the last result is. -/
theorem value_congr (e : Expr) (h : Token.answer ∉ e.listing) :
    value lastResult e = value lastResult' e := by
  match e with
  | number v => rfl
  | pi => rfl
  | answer => exact absurd (List.mem_singleton_self Token.answer) h
  | negate e =>
    rw [listing, List.mem_append, not_or] at h
    rw [value, value, value_congr e h.1]
  | binary op l r =>
    rw [listing, List.mem_append, List.mem_append, not_or, not_or] at h
    rw [value, value, value_congr l h.1.1, value_congr r h.1.2]
  | call f args =>
    rw [listing, List.mem_append, not_or] at h
    rw [value, value, valueAll_congr args h.1]

/-- Trees without the last result have the same values whatever the last result is. -/
theorem valueAll_congr (es : List Expr) (h : Token.answer ∉ listingAll es) :
    valueAll lastResult es = valueAll lastResult' es := by
  match es with
  | [] => rfl
  | e :: es =>
    rw [listingAll, List.mem_append, not_or] at h
    rw [valueAll, valueAll, value_congr e h.1, valueAll_congr es h.2]

end

end Expr

/-! ## Tokens of a tree -/

/-- The tokens of an argument are among those of all arguments. -/
theorem Token.mem_intercalate_of_mem {args : List (List Token)} {ts : List Token} {t : Token}
    (hts : ts ∈ args) (ht : t ∈ ts) : t ∈ [comma].intercalate args := by
  induction args with
  | nil => cases hts
  | cons us args ih =>
    cases args with
    | nil =>
      obtain rfl := List.mem_singleton.1 hts
      simpa using ht
    | cons vs args =>
      rw [List.intercalate_cons_cons, List.mem_append, List.mem_append]
      rcases List.mem_cons.1 hts with rfl | hts
      · exact .inl (.inl ht)
      · exact .inr (ih hts)

/-- What is listed of a derived tree are its tokens, and negations. -/
theorem Grammar.Derives.mem_of_mem_listing {c : Category} {ts : List Token} {e : Expr}
    (h : Derives .plain c ts e) {t : Token} (ht : t ∈ e.listing) : t = .negate ∨ t ∈ ts := by
  -- The sums, products and powers: a token is one of an operand, or it is the operator.
  have hbinary {op : Operator} {ts us : List Token} {l r : Expr}
      (ihl : t ∈ l.listing → t = .negate ∨ t ∈ ts) (ihr : t ∈ r.listing → t = .negate ∨ t ∈ us)
      (ht : t ∈ (Expr.binary op l r).listing) :
      t = .negate ∨ t ∈ ts ++ .operator op :: us := by
    rw [Expr.listing, List.mem_append, List.mem_append, List.mem_singleton] at ht
    rw [List.mem_append, List.mem_cons]
    rcases ht with (hl | hr) | rfl
    · exact (ihl hl).imp_right .inl
    · exact (ihr hr).imp_right fun hr => .inr (.inr hr)
    · exact .inr (.inr (.inl rfl))
  induction h with
  | sumOfProduct _ ih => exact ih ht
  | sum _ _ _ ihl ihr => exact hbinary ihl ihr ht
  | productOfSigned _ ih => exact ih ht
  | product _ _ _ ihl ihr => exact hbinary ihl ihr ht
  | juxtaposed hjoins => exact False.elim hjoins
  | signedOfPower _ ih => exact ih ht
  | minus _ ih =>
    rw [Expr.listing, List.mem_append, List.mem_singleton] at ht
    exact ht.elim (fun ht => (ih ht).imp_right (List.mem_cons_of_mem _)) .inl
  | plus _ ih => exact (ih ht).imp_right (List.mem_cons_of_mem _)
  | powerOfAtom _ ih => exact ih ht
  | power _ _ ihb ihx => exact hbinary ihb ihx ht
  | number v => exact .inr ht
  | pi => exact .inr ht
  | answer => exact .inr ht
  | leaf hleaf => exact False.elim hleaf
  | bracketed _ ih =>
    exact (ih ht).imp_right fun ht => List.mem_cons_of_mem _ (List.mem_append_left _ ht)
  | call f arguments trees _ ih =>
    rw [Expr.listing, Expr.listingAll_eq_flatMap, List.mem_append, List.mem_flatMap,
      List.mem_singleton] at ht
    rcases ht with ⟨e, he, ht⟩ | rfl
    · obtain ⟨i, rfl⟩ := List.mem_ofFn.1 he
      refine (ih i ht).imp_right fun ht => ?_
      have hargs := Token.mem_intercalate_of_mem (List.mem_ofFn.2 ⟨i, rfl⟩) ht
      simp [hargs]
    · simp

/-- The tree of a text that does not mention the last result has no leaf for it. -/
theorem Expr.answer_not_mem_listing {mode : AngleMode} {source : String} {e : Expr}
    (hanswer : Token.answer ∉ Token.lex source) (h : ofText mode source = .ok e) :
    Token.answer ∉ e.listing := by
  intro hleaf
  have hprepared : ∀ t ∈ Token.prepare mode (Token.lex source), t.Unsigned :=
    Token.unsigned_prepare (Token.unsigned_lex hanswer)
  rcases (ofInfix_eq_ok_iff.1 h).mem_of_mem_listing hleaf with hnegate | hmem
  · cases hnegate
  · exact hprepared Token.answer hmem

/-! ## Two contexts -/

/-- Without sines, cosines and tangents no function takes an angle. -/
theorem Token.noAngle_of_not_mem {ts : List Token}
    (h : ∀ f ∈ [MathFunction.sin, .cos, .tan], function f ∉ ts) : ∀ t ∈ ts, t.NoAngle := by
  rintro t ht f rfl
  exact Bool.eq_false_iff.2 fun hf => h f (MathFunction.takesAngle_iff.1 hf) ht

/--
A text has the same answer in two contexts, be it a value with its working or a fault, if they round
results alike and agree on what the text mentions: on the last result, if `Ans` is among its tokens,
and on the angle mode, if a sine, cosine or tangent is. Their memories may differ.
-/
theorem evaluateWithWorking_eq_of_agree {source : String} {context context' : Context}
    (hrounding : context.rounding = context'.rounding)
    (hlast : context.lastResult = context'.lastResult ∨ Token.answer ∉ Token.lex source)
    (hangles : context.angles = context'.angles ∨
      ∀ f ∈ [MathFunction.sin, .cos, .tan], Token.function f ∉ Token.lex source) :
    evaluateWithWorking source context = evaluateWithWorking source context' := by
  have hprepare : Token.prepare context.angles (Token.lex source) =
      Token.prepare context'.angles (Token.lex source) := by
    rcases hangles with hangles | hangles
    · rw [hangles]
    · have hnone := Token.noAngle_of_not_mem hangles
      rw [Token.prepare_eq_toPlain hnone, Token.prepare_eq_toPlain hnone]
  have htext : Expr.ofText context.angles source = Expr.ofText context'.angles source := by
    rw [Expr.ofText, hprepare, Expr.ofText]
  have hworking (e : Expr) (raw : Float) :
      Working.ofTree context.angles source e raw = Working.ofTree context'.angles source e raw := by
    rw [Working.ofTree, hprepare, Working.ofTree]
  rw [evaluateWithWorking_eq, evaluateWithWorking_eq, ← htext, ← hrounding]
  rcases htree : Expr.ofText context.angles source with fault | e
  · rfl
  · have hvalue : e.eval context.lastResult = e.eval context'.lastResult := by
      rcases hlast with hlast | hanswer
      · rw [hlast]
      · rw [Expr.eval_eq_value, Expr.eval_eq_value,
          Expr.value_congr e (Expr.answer_not_mem_listing hanswer htree)]
    simp only [mapError_malformed_ok, Except.bind, hvalue, hworking]

/-- The hyperbolic tangent in `50%tanh(5C2` is no tangent: angle mode and last result are free. -/
theorem evaluateWithWorking_eq_of_agree_hyperbolic :
    let context : Context := { angles := .degrees, memory := 1, lastResult := 2 }
    let context' : Context := { angles := .radians, memory := 3, lastResult := 4 }
    context.rounding = context'.rounding ∧
      Token.answer ∉ Token.lex "50%tanh(5C2" ∧
      (∀ f ∈ [MathFunction.sin, .cos, .tan], Token.function f ∉ Token.lex "50%tanh(5C2") ∧
      evaluateWithWorking "50%tanh(5C2" context = evaluateWithWorking "50%tanh(5C2" context' := by
  intro context context'
  have hanswer : Token.answer ∉ Token.lex "50%tanh(5C2" := by decide +kernel
  have hangles : ∀ f ∈ [MathFunction.sin, .cos, .tan],
      Token.function f ∉ Token.lex "50%tanh(5C2" := by decide +kernel
  exact ⟨rfl, hanswer, hangles,
    evaluateWithWorking_eq_of_agree rfl (.inr hanswer) (.inr hangles)⟩

end SciCalc
