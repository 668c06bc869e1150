import SciCalc.Proofs.Evaluating
import SciCalc.Proofs.TokenTexts

/-!
# The working can be evaluated again

The tokens shown in a working are those whose tree was evaluated, with their angles in radians. They
are read back from their text, since every literal among them is finite and has no sign, and nothing
is left in them that the preparation would rewrite: no percent sign and no mark, no bracket without
its partner and no operands side by side. So the text of the working has the same tree in radians,
and with it the same value and the same working. The last result is left out throughout: it is shown
as `Ans`, and no word that is read begins with a capital letter.
-/

set_option autoImplicit false

namespace SciCalc

namespace Token

/-- The tokens of the plain language. -/
def Plain : Token → Prop
  | number _ | pi | answer | function _ | operator _ | opening | closing | comma => True
  | _ => False

/-! ## Tokens that need no preparation -/

/-- Without percent signs there is nothing to resolve. -/
theorem resolvePercent_eq_self {ts : List Token} (h : percent ∉ ts) : resolvePercent ts = ts := by
  induction ts with
  | nil => rfl
  | cons t ts ih =>
    obtain ⟨ht, hts⟩ := not_or.1 (mt List.mem_cons.2 h)
    rw [resolvePercent_cons (Ne.symm ht) fun _ hhead => hts (List.mem_of_mem_head? hhead), ih hts]

/-- Without factorial marks there is nothing to expand. -/
theorem expandFactorials_eq_self {ts : List Token} (h : factorialMark ∉ ts) :
    expandFactorials ts = ts := by
  induction ts with
  | nil => rfl
  | cons t ts ih =>
    obtain ⟨-, hts⟩ := not_or.1 (mt List.mem_cons.2 h)
    rw [expandFactorials_cons fun _ hhead => hts (List.mem_of_mem_head? hhead), ih hts]

/-- Without marks between literals there is nothing to expand. -/
theorem expandBetween_eq_self {mark : Token} (f : MathFunction) {ts : List Token} (h : mark ∉ ts) :
    expandBetween mark f ts = ts := by
  induction ts with
  | nil => rfl
  | cons t ts ih =>
    obtain ⟨-, hts⟩ := not_or.1 (mt List.mem_cons.2 h)
    rw [expandBetween_cons f fun _ w us hpair => hts (by simp [hpair]), ih hts]

/-- Plain tokens hold no marks. -/
theorem expandMarks_eq_self {ts : List Token} (h : ∀ t ∈ ts, t.Plain) : expandMarks ts = ts := by
  have hfactorial : factorialMark ∉ ts := h factorialMark
  have hpermutation : permutationMark ∉ ts := h permutationMark
  have hcombination : combinationMark ∉ ts := h combinationMark
  rw [expandMarks, expandFactorials_eq_self hfactorial, expandBetween_eq_self _ hpermutation,
    expandBetween_eq_self _ hcombination]

end Token

/-! ## Tokens that are accepted -/

namespace Postfix

open Token (Plain NoProduct)

/-- Every token that is read is one of the plain language. -/
theorem Step.plain {s s' : State} {t : Token} (h : Step s t s') : t.Plain := by
  cases h with
  | operand ht => rcases ht with ⟨v, rfl⟩ | rfl | rfl <;> trivial
  | _ => trivial

/-- Behind an operand no operand begins. -/
theorem Step.startsValue_of_filled {output : List Token} {pending : List Pending} {t : Token}
    {s : State} (h : Step (.filled output pending) t s) : t.startsValue = false := by
  cases h with
  | operator output hops hrest => rfl
  | comma f commas output rest hops => rfl
  | closeBracket commas output rest hops => rfl
  | closeCall output rest hops hlen => rfl

/-- Tokens that are read one after the other are no juxtaposed operands. -/
theorem Step.noProduct {s s₁ s₂ : State} {a b : Token} (ha : Step s a s₁) (hb : Step s₁ b s₂) :
    NoProduct a b := by
  have hends (h : a.endsValue = false) : NoProduct a b := by simp [NoProduct, Token.juxtaposed, h]
  have hstarts (h : b.startsValue = false) : NoProduct a b := by
    simp [NoProduct, Token.juxtaposed, h]
  cases ha with
  | operand ht => exact hstarts hb.startsValue_of_filled
  | closeBracket commas output rest hops => exact hstarts hb.startsValue_of_filled
  | closeCall output rest hops hlen => exact hstarts hb.startsValue_of_filled
  | _ => exact hends rfl

/-- Tokens that are read are plain, and no product sign is missing between them. -/
theorem plain_of_readAll {s s' : State} {ts : List Token} (h : readAll s ts = .ok s') :
    (∀ t ∈ ts, t.Plain) ∧ Token.insertProducts ts = ts := by
  induction ts generalizing s with
  | nil => exact ⟨by simp, rfl⟩
  | cons t ts ih =>
    obtain ⟨s₁, hstep, h⟩ := readAll_cons_eq_ok_iff.1 h
    obtain ⟨hplain, hproducts⟩ := ih h
    have ht := step_eq_ok_iff.1 hstep
    refine ⟨List.forall_mem_cons.2 ⟨ht.plain, hplain⟩, ?_⟩
    rw [Token.insertProducts_cons fun b hb => ?_, hproducts]
    obtain ⟨us, rfl⟩ := List.head?_eq_some_iff.1 hb
    obtain ⟨s₂, hnext, -⟩ := readAll_cons_eq_ok_iff.1 h
    exact ht.noProduct (step_eq_ok_iff.1 hnext)

end Postfix

/-- Tokens that have a tree are plain and need no preparation but that of their angles. -/
theorem Expr.toPlain_of_ofInfix {ts : List Token} {e : Expr} (h : Expr.ofInfix ts = .ok e) :
    (∀ t ∈ ts, t.Plain) ∧ Token.toPlain ts = ts := by
  obtain ⟨output, ops, hread, -⟩ :=
    Postfix.ofInfix_eq_ok_iff_readAll.1 (Expr.ofInfix_eq_ok_iff_listing.1 h).1
  obtain ⟨hplain, hproducts⟩ := Postfix.plain_of_readAll hread
  have hpercent : Token.percent ∉ ts := hplain Token.percent
  have hmatched : Token.Matched ts := (Expr.ofInfix_eq_ok_iff.1 h).matched
  have hclosed : Token.closeBrackets ts = ts := by
    rw [Token.closeBrackets, Token.missingClosings_of_depthAfter hmatched]
    exact List.append_nil ts
  refine ⟨hplain, ?_⟩
  rw [Token.toPlain, Token.resolvePercent_eq_self hpercent, hclosed, hproducts,
    Token.expandMarks_eq_self hplain]

/-! ## What the passes put in -/

namespace Token

/-- A property that all tokens have which are put in for percent signs, products and marks. -/
structure Usual (p : Token → Prop) : Prop where
  opening : p opening
  closing : p closing
  comma : p comma
  operator (op : Operator) : p (operator op)
  hundred : p (number 100)
  counting (f : MathFunction) : f.takesAngle = false → p (function f)

namespace Usual

variable {p : Token → Prop} (hp : Usual p) {ts : List Token} (h : ∀ t ∈ ts, p t)

include hp h

/-- Dividing percent signs puts in usual tokens only. -/
theorem resolvePercent : ∀ t ∈ resolvePercent ts, p t := by
  obtain ⟨hopening, hclosing, -, hoperator, hhundred, -⟩ := hp
  fun_induction Token.resolvePercent ts with
  | case1 v ts ih => simp_all [hundredth]
  | case2 ts ih => simp_all [hundredth]
  | case3 ts _ ih => simp_all
  | case4 t ts _ _ _ ih => simp_all
  | case5 => exact h

/-- Inserting products puts in usual tokens only. -/
theorem insertProducts : ∀ t ∈ insertProducts ts, p t := by
  have hoperator := hp.operator
  fun_induction Token.insertProducts ts with
  | case1 a b ts _ ih => simp_all
  | case2 a b ts _ ih => simp_all
  | case3 ts _ => exact h

/-- Writing factorials out puts in usual tokens only. -/
theorem expandFactorials : ∀ t ∈ expandFactorials ts, p t := by
  have hfactorial := hp.counting .factorial rfl
  obtain ⟨hopening, hclosing, -, -, -, -⟩ := hp
  fun_induction Token.expandFactorials ts with
  | case1 v ts ih => simp_all [callOne]
  | case2 t ts _ ih => simp_all
  | case3 => exact h

/-- Writing out a mark between literals puts in usual tokens only. -/
theorem expandBetween (mark : Token) {f : MathFunction} (hf : f.takesAngle = false) :
    ∀ t ∈ expandBetween mark f ts, p t := by
  have hcounting := hp.counting f hf
  obtain ⟨hopening, hclosing, hcomma, -, -, -⟩ := hp
  fun_induction Token.expandBetween mark f ts with
  | case1 v w ts ih => simp_all [callTwo]
  | case2 v t w ts _ ih => simp_all
  | case3 t ts _ ih => simp_all
  | case4 => exact h

/-- What holds of tokens holds of them in the plain language. -/
theorem toPlain : ∀ t ∈ toPlain ts, p t := by
  have hclosed : ∀ t ∈ closeBrackets (Token.resolvePercent ts), p t := by
    refine List.forall_mem_append.2 ⟨hp.resolvePercent h, fun t ht => ?_⟩
    rw [List.eq_of_mem_replicate ht]
    exact hp.closing
  exact hp.expandBetween (hp.expandBetween (hp.expandFactorials (hp.insertProducts hclosed)) _ rfl)
    _ rfl

end Usual

/-! ## Tokens without signs -/

open Binary64 (isNegative)

/-- The token is neither the last result nor a literal with a sign. -/
def Unsigned : Token → Prop
  | number v => isNegative v = false
  | answer => False
  | _ => True

/-- Nothing that is put in has a sign. -/
theorem usual_unsigned : Usual Unsigned where
  opening := trivial
  closing := trivial
  comma := trivial
  operator _ := trivial
  hundred := by
    show isNegative 100 = false
    decide +kernel
  counting _ _ := trivial

/-- Converting angles brings in no sign. -/
theorem unsigned_convertWithin {within : List Bool} {ts : List Token}
    (h : ∀ t ∈ ts, t.Unsigned) : ∀ t ∈ convertWithin within ts, t.Unsigned := by
  have hhalfTurn : isNegative 180 = false := by decide +kernel
  fun_induction convertWithin within ts with
  | case1 within f ts _ ih => simp_all [openInDegrees, Unsigned]
  | case2 within f ts _ ih => simp_all
  | case3 within ts ih => simp_all
  | case4 within ts ih => simp_all
  | case5 within ts _ ih => simp_all
  | case6 within t ts _ _ _ _ ih => simp_all
  | case7 => exact h

/-- Preparing brings in no sign. -/
theorem unsigned_prepare {mode : AngleMode} {ts : List Token} (h : ∀ t ∈ ts, t.Unsigned) :
    ∀ t ∈ prepare mode ts, t.Unsigned := by
  have hplain : ∀ t ∈ toPlain ts, t.Unsigned := usual_unsigned.toPlain h
  cases mode with
  | radians => exact hplain
  | degrees => exact unsigned_convertWithin hplain

/-- What is read from a text without the last result has no sign. -/
theorem unsigned_lex {s : String} (h : answer ∉ lex s) : ∀ t ∈ lex s, t.Unsigned := by
  intro t ht
  cases t with
  | number v => exact Held.sound_nothing.isNegative_of_mem_lexFrom ht
  | answer => exact absurd ht h
  | _ => trivial

end Token

/-! ## Literals of a tree that has a value -/

namespace Expr

open Grammar

variable {lastResult v : Float}

/-- The operands of a node that has a value have values. -/
theorem exists_value_of_binary {op : Operator} {l r : Expr}
    (h : value lastResult (.binary op l r) = .ok v) :
    (∃ a, value lastResult l = .ok a) ∧ ∃ b, value lastResult r = .ok b := by
  rw [value] at h
  obtain ⟨a, hl, h⟩ := Postfix.bind_eq_ok_iff.1 h
  obtain ⟨b, hr, -⟩ := Postfix.bind_eq_ok_iff.1 h
  exact ⟨⟨a, hl⟩, b, hr⟩

/-- The arguments of a call that has a value have values. -/
theorem exists_value_of_valueAll {es : List Expr} {vs : List Float}
    (h : valueAll lastResult es = .ok vs) : ∀ e ∈ es, ∃ a, value lastResult e = .ok a := by
  induction es generalizing vs with
  | nil => simp
  | cons e es ih =>
    rw [valueAll] at h
    obtain ⟨a, he, h⟩ := Postfix.bind_eq_ok_iff.1 h
    obtain ⟨as, hes, -⟩ := Postfix.bind_eq_ok_iff.1 h
    exact List.forall_mem_cons.2 ⟨⟨a, he⟩, ih hes⟩

/-- A literal among arguments stands in one of them. -/
theorem exists_mem_of_mem_intercalate {args : List (List Token)} {x : Float}
    (h : .number x ∈ [Token.comma].intercalate args) : ∃ ts ∈ args, .number x ∈ ts := by
  induction args with
  | nil => simp at h
  | cons ts args ih =>
    cases args with
    | nil => exact ⟨ts, by simp, by simpa using h⟩
    | cons us args =>
      rw [List.intercalate_cons_cons, List.append_assoc] at h
      rcases List.mem_append.1 h with h | h
      · exact ⟨ts, by simp, h⟩
      · obtain ⟨vs, hvs, hx⟩ := ih (by simpa using h)
        exact ⟨vs, List.mem_cons_of_mem ts hvs, hx⟩

/-- The literals of a tree that has a value are finite. -/
theorem isFinite_of_value {c : Category} {ts : List Token} {e : Expr}
    (h : Derives .plain c ts e) (hv : ∃ v, value lastResult e = .ok v) :
    ∀ x, .number x ∈ ts → x.isFinite = true := by
  -- The sums, products and powers: a literal stands in one of the two operands.
  have hbinary {op : Operator} {ts us : List Token} {l r : Expr}
      (ihl : (∃ a, value lastResult l = .ok a) → ∀ x, .number x ∈ ts → x.isFinite = true)
      (ihr : (∃ b, value lastResult r = .ok b) → ∀ x, .number x ∈ us → x.isFinite = true)
      (hv : ∃ v, value lastResult (.binary op l r) = .ok v) (x : Float)
      (hx : .number x ∈ ts ++ .operator op :: us) : x.isFinite = true := by
    obtain ⟨v, hv⟩ := hv
    obtain ⟨hl, hr⟩ := exists_value_of_binary hv
    rcases List.mem_append.1 hx with hx | hx
    · exact ihl hl x hx
    · exact ihr hr x (by simpa using hx)
  induction h with
  | sumOfProduct _ ih => exact ih hv
  | sum _ _ _ ihl ihr => exact hbinary ihl ihr hv
  | productOfSigned _ ih => exact ih hv
  | product _ _ _ ihl ihr => exact hbinary ihl ihr hv
  | juxtaposed hjoins => exact False.elim hjoins
  | signedOfPower _ ih => exact ih hv
  | minus _ ih =>
    obtain ⟨v, hv⟩ := hv
    obtain ⟨a, ha, -⟩ := Postfix.bind_eq_ok_iff.1 hv
    exact fun x hx => ih ⟨a, ha⟩ x (by simpa using hx)
  | plus _ ih => exact fun x hx => ih hv x (by simpa using hx)
  | powerOfAtom _ ih => exact ih hv
  | power _ _ ihb ihx => exact hbinary ihb ihx hv
  | number w =>
    obtain ⟨v, hv⟩ := hv
    intro x hx
    obtain rfl : x = w := by simpa using hx
    exact (finite_eq_ok_iff.1 hv).1
  | pi => simp
  | answer => simp
  | leaf hleaf => exact False.elim hleaf
  | bracketed _ ih => exact fun x hx => ih hv x (by simpa using hx)
  | call f arguments trees _ ih =>
    obtain ⟨v, hv⟩ := hv
    obtain ⟨vs, hvs, -⟩ := Postfix.bind_eq_ok_iff.1 hv
    have htrees := exists_value_of_valueAll hvs
    intro x hx
    have hx : .number x ∈ [Token.comma].intercalate (List.ofFn arguments) := by simpa using hx
    obtain ⟨ts, hts, hx⟩ := exists_mem_of_mem_intercalate hx
    obtain ⟨i, rfl⟩ := List.mem_ofFn.1 hts
    exact ih i (htrees _ (List.mem_ofFn.2 ⟨i, rfl⟩)) x hx

/-- Tokens whose tree has a value are read back from their text if they have no signs. -/
theorem legible_of_value {ts : List Token} {e : Expr} (he : ofInfix ts = .ok e)
    (hv : ∃ v, value lastResult e = .ok v) (hunsigned : ∀ t ∈ ts, t.Unsigned) :
    ∀ t ∈ ts, t.Legible := by
  intro t ht
  have hplain : t.Plain := (toPlain_of_ofInfix he).1 t ht
  have hsign : t.Unsigned := hunsigned t ht
  cases t with
  | number x => exact ⟨isFinite_of_value (ofInfix_eq_ok_iff.1 he) hv x ht, hsign⟩
  | answer => cases hsign
  | negate => cases hplain
  | unknown s => cases hplain
  | _ => trivial

/-- Such tokens are read back and prepared in radians without a change. -/
theorem prepare_lex_listText {ts : List Token} {e : Expr} (he : ofInfix ts = .ok e)
    (hv : ∃ v, value lastResult e = .ok v) (hunsigned : ∀ t ∈ ts, t.Unsigned) :
    Token.prepare .radians (Token.lex (Token.listText ts)) = ts := by
  rw [Token.lex_listText (legible_of_value he hv hunsigned)]
  exact (toPlain_of_ofInfix he).2

end Expr

/-! ## The working -/

/--
The tokens of the working of a text that does not mention the last result have in radians the value
of the text, and a working with the same tokens, postfix tokens and raw value.
-/
theorem evaluateWithWorking_tokens {source : String} {context : Context} {v : Float} {w : Working}
    (hanswer : Token.answer ∉ Token.lex source)
    (h : evaluateWithWorking source context = .ok (v, w)) :
    ∃ w', evaluateWithWorking w.tokens { context with angles := .radians } = .ok (v, w') ∧
      w'.tokens = w.tokens ∧ w'.postfixTokens = w.postfixTokens ∧ w'.rawValue = w.rawValue := by
  obtain ⟨e, raw, he, hraw, hv, rfl⟩ := evaluateWithWorking_eq_ok_iff.1 h
  have hread : Token.prepare .radians
      (Token.lex (Working.ofTree context.angles source e raw).tokens) =
        Token.prepare context.angles (Token.lex source) :=
    Expr.prepare_lex_listText he ⟨raw, hraw⟩ (Token.unsigned_prepare (Token.unsigned_lex hanswer))
  have htree :
      Expr.ofText .radians (Working.ofTree context.angles source e raw).tokens = .ok e := by
    rw [Expr.ofText, hread]
    exact he
  refine ⟨_, evaluateWithWorking_eq_ok_iff.2 ⟨e, raw, htree, hraw, hv, rfl⟩, ?_, rfl, rfl⟩
  rw [Working.ofTree_tokens, hread, Working.ofTree_tokens]

/-- The tokens of `50%(3!` show the percentage, the product and the factorial written out. -/
theorem evaluateWithWorking_tokens_half_factorial :
    let context : Context := { lastResult := 7 }
    let w : Working :=
      { source := "50%(3!"
        tokens := "( 50 / 100 ) * ( factorial ( 3 ) )"
        postfixTokens := "50 100 / 3 factorial *"
        rawValue := "3"
        note := Working.standingNote }
    Token.answer ∉ Token.lex "50%(3!" ∧
      evaluateWithWorking "50%(3!" context = .ok (3, w) ∧
      ∃ w', evaluateWithWorking w.tokens { context with angles := .radians } = .ok (3, w') ∧
        w'.tokens = w.tokens ∧ w'.postfixTokens = w.postfixTokens ∧ w'.rawValue = w.rawValue := by
  intro context w
  have hanswer : Token.answer ∉ Token.lex "50%(3!" := by decide +kernel
  have hvalue : (evaluateWithWorking "50%(3!" context).toOption = some (3, w) := by
    decide +kernel
  have h : evaluateWithWorking "50%(3!" context = .ok (3, w) := by
    cases hrun : evaluateWithWorking "50%(3!" context with
    | error fault => simp [hrun, Except.toOption] at hvalue
    | ok result =>
      have hresult : result = (3, w) := by simpa [hrun, Except.toOption] using hvalue
      rw [hresult]
  exact ⟨hanswer, h, evaluateWithWorking_tokens hanswer h⟩

end SciCalc
