import SciCalc.Proofs.Parsing

/-!
# Dialects written out

A pass may write a dialect out in the plain one: what the dialect adds becomes a call or a product
of the plain grammar, and everything else stays. That tokens of the dialect keep their tree needs
the pass to go through them part by part: on both sides of an operator or a comma, and inside
brackets. That nothing else gets a tree needs a way back: wherever the plain grammar takes written
tokens apart, the tokens they were written from come apart as well, at the same place or between two
operands that were joined there. The brackets of a part match, so a part never ends inside of a call
that the pass has written.
-/

set_option autoImplicit false

namespace SciCalc.Grammar

open Token (Matched)

variable {d : Dialect}

/-- The token stands between operands: an operator or a comma. -/
def Separates (t : Token) : Prop := t = .comma ∨ ∃ op, t = .operator op

/-- A comma stands between operands. -/
theorem separates_comma : Separates .comma := .inl rfl

/-- An operator stands between operands. -/
theorem separates_operator (op : Operator) : Separates (.operator op) := .inr ⟨op, rfl⟩

/-- The token is an operand. -/
def IsOperand (t : Token) : Prop := (∃ v, t = .number v) ∨ t = .pi ∨ t = .answer

/-- The token opens brackets: an opening bracket, or a name before one. -/
def OpensBrackets (t : Token) : Prop := t = .opening ∨ ∃ f, t = .function f

/-! ## From the dialect -/

/--
The pass goes through the tokens of the dialect part by part, and what is added it writes out.
-/
structure WritesOut (d : Dialect) (pass : List Token → List Token) : Prop where
  nil : pass [] = []
  operand : ∀ t, IsOperand t → pass [t] = [t]
  separated : ∀ (ts : List Token) (t : Token) (us : List Token), Separates t →
    pass (ts ++ t :: us) = pass ts ++ t :: pass us
  opens : ∀ (t : Token) (ts : List Token), OpensBrackets t → pass (t :: ts) = t :: pass ts
  closes : ∀ ts : List Token, pass (ts ++ [.closing]) = pass ts ++ [.closing]
  leaf : ∀ (ts : List Token) (e : Expr), d.leaf ts e → Derives .plain .atom (pass ts) e
  joined : ∀ (ts us : List Token) (l r : Expr), d.joins ts us → Derives d .product ts l →
    Derives d .power us r → pass (ts ++ us) = pass ts ++ .operator .multiply :: pass us

namespace WritesOut

variable {pass : List Token → List Token} (h : WritesOut d pass)

include h

/-- A sign stays in front. -/
theorem sign (op : Operator) (ts : List Token) :
    pass (.operator op :: ts) = .operator op :: pass ts := by
  simpa [h.nil] using h.separated [] (.operator op) ts (separates_operator op)

/-- Brackets stay around what is in them. -/
theorem bracketed (ts : List Token) :
    pass (.opening :: (ts ++ [.closing])) = .opening :: (pass ts ++ [.closing]) := by
  rw [h.opens _ _ (.inl rfl), h.closes]

/-- Arguments are written out one by one. -/
theorem intercalate (args : List (List Token)) :
    pass ([Token.comma].intercalate args) = [Token.comma].intercalate (args.map pass) := by
  induction args with
  | nil => exact h.nil
  | cons ts args ih =>
    cases args with
    | nil => simp
    | cons us args =>
      have hcomma := h.separated ts .comma ([Token.comma].intercalate (us :: args)) separates_comma
      rw [ih] at hcomma
      simpa [List.intercalate_cons_cons] using hcomma

/-- Tokens that are written out keep their tree. -/
theorem derives {c : Category} {ts : List Token} {e : Expr} (hts : Derives d c ts e) :
    Derives .plain c (pass ts) e := by
  induction hts with
  | sumOfProduct _ ih => exact .sumOfProduct ih
  | sum hop _ _ ihl ihr =>
    rw [h.separated _ _ _ (separates_operator _)]
    exact .sum hop ihl ihr
  | productOfSigned _ ih => exact .productOfSigned ih
  | product hop _ _ ihl ihr =>
    rw [h.separated _ _ _ (separates_operator _)]
    exact .product hop ihl ihr
  | juxtaposed hjoins hl hr ihl ihr =>
    rw [h.joined _ _ _ _ hjoins hl hr]
    exact .product (.inl rfl) ihl (.signedOfPower ihr)
  | signedOfPower _ ih => exact .signedOfPower ih
  | minus _ ih =>
    rw [h.sign]
    exact .minus ih
  | plus _ ih =>
    rw [h.sign]
    exact .plus ih
  | powerOfAtom _ ih => exact .powerOfAtom ih
  | power _ _ ihb ihx =>
    rw [h.separated _ _ _ (separates_operator _)]
    exact .power ihb ihx
  | number v =>
    rw [h.operand _ (.inl ⟨v, rfl⟩)]
    exact .number v
  | pi =>
    rw [h.operand _ (.inr (.inl rfl))]
    exact .pi
  | answer =>
    rw [h.operand _ (.inr (.inr rfl))]
    exact .answer
  | leaf hleaf => exact h.leaf _ _ hleaf
  | bracketed _ ih =>
    rw [h.bracketed]
    exact .bracketed ih
  | call f arguments trees _ ih =>
    rw [h.opens _ _ (.inr ⟨f, rfl⟩), h.bracketed, h.intercalate, List.map_ofFn]
    exact .call f _ trees ih

end WritesOut

/-! ## Back to the dialect -/

/--
Written tokens and the tokens that they stand for come apart together. At an operator or a comma
behind matching tokens both do, or two operands were joined there without a sign. Brackets and names
are taken off both, or the call is one of the atoms that the dialect adds.
-/
structure ReadsBack (d : Dialect) (written : List Token → List Token → Prop) : Prop where
  nil : ∀ ts, written [] ts → ts = []
  operand : ∀ (t : Token) (ts : List Token), IsOperand t → written [t] ts → ts = [t]
  separated : ∀ (us : List Token) (t : Token) (vs ts : List Token), Separates t → Matched us →
    written (us ++ t :: vs) ts →
      (∃ ts₁ ts₂, ts = ts₁ ++ t :: ts₂ ∧ written us ts₁ ∧ written vs ts₂) ∨
      t = .operator .multiply ∧ ∃ ts₁ ts₂, ts = ts₁ ++ ts₂ ∧ written us ts₁ ∧ written vs ts₂ ∧
        d.joins ts₁ ts₂ ∧ ∀ op, ts₂.head? ≠ some (.operator op)
  bracketed : ∀ us ts : List Token, Matched us → written (.opening :: (us ++ [.closing])) ts →
    ∃ vs, ts = .opening :: (vs ++ [.closing]) ∧ written us vs
  named : ∀ (f : MathFunction) (us ts : List Token), Matched us →
    written (.function f :: .opening :: (us ++ [.closing])) ts →
      (∃ vs, ts = .function f :: vs ∧ written (.opening :: (us ++ [.closing])) vs) ∨
      ∀ e, Derives .plain .atom (.function f :: .opening :: (us ++ [.closing])) e → d.leaf ts e

/-- A signed operand without a sign in front is a power. -/
theorem Derives.power_of_signed {ts : List Token} {e : Expr} (h : Derives d .signed ts e)
    (hsign : ∀ op, ts.head? ≠ some (.operator op)) : Derives d .power ts e := by
  cases h with
  | signedOfPower h => exact h
  | minus _ => exact absurd rfl (hsign .subtract)
  | plus _ => exact absurd rfl (hsign .add)

namespace ReadsBack

variable {written : List Token → List Token → Prop} (h : ReadsBack d written)

include h

/-- Tokens come apart at a token that is no product sign. -/
theorem apart {us : List Token} {t : Token} {vs ts : List Token} (ht : Separates t)
    (hproduct : t ≠ .operator .multiply) (hus : Matched us) (hts : written (us ++ t :: vs) ts) :
    ∃ ts₁ ts₂, ts = ts₁ ++ t :: ts₂ ∧ written us ts₁ ∧ written vs ts₂ := by
  rcases h.separated us t vs ts ht hus hts with hapart | ⟨hmultiply, -⟩
  · exact hapart
  · exact absurd hmultiply hproduct

/-- Tokens come apart behind a sign. -/
theorem sign {op : Operator} (hproduct : op ≠ .multiply) {us ts : List Token}
    (hts : written (.operator op :: us) ts) : ∃ vs, ts = .operator op :: vs ∧ written us vs := by
  have hfront : written ([] ++ .operator op :: us) ts := hts
  have hnothing : Matched [] := rfl
  obtain ⟨ts₁, ts₂, rfl, hnil, hts₂⟩ :=
    h.apart (separates_operator op) (by simpa using hproduct) hnothing hfront
  rw [h.nil ts₁ hnil]
  exact ⟨ts₂, rfl, hts₂⟩

/-- Arguments come apart at their commas. -/
theorem arguments {args : List (List Token × Expr)} (hne : args ≠ [])
    (hmatched : ∀ a ∈ args, Matched a.1)
    (hargs : ∀ a ∈ args, ∀ ts, written a.1 ts → Derives d .sum ts a.2) {ts : List Token}
    (hts : written ([Token.comma].intercalate (args.map Prod.fst)) ts) :
    ∃ parts : List (List Token × Expr), ts = [Token.comma].intercalate (parts.map Prod.fst) ∧
      parts.map Prod.snd = args.map Prod.snd ∧ ∀ p ∈ parts, Derives d .sum p.1 p.2 := by
  induction args generalizing ts with
  | nil => exact absurd rfl hne
  | cons a args ih =>
    cases args with
    | nil =>
      have hfirst : Derives d .sum ts a.2 := hargs a (by simp) ts (by simpa using hts)
      exact ⟨[(ts, a.2)], by simp, rfl, by simpa using hfirst⟩
    | cons b args =>
      have hcomma : written (a.1 ++ .comma :: [Token.comma].intercalate ((b :: args).map Prod.fst))
          ts := by simpa [List.intercalate_cons_cons] using hts
      obtain ⟨ts₁, ts₂, rfl, hfirst, hrest⟩ :=
        h.apart separates_comma (by simp) (hmatched a (by simp)) hcomma
      obtain ⟨parts, rfl, htrees, hparts⟩ := ih (by simp) (fun x hx => hmatched x (by simp [hx]))
        (fun x hx => hargs x (by simp [hx])) hrest
      refine ⟨(ts₁, a.2) :: parts, ?_, by simp [htrees], ?_⟩
      · cases parts with
        | nil => cases htrees
        | cons p parts => simp [List.intercalate_cons_cons]
      · exact List.forall_mem_cons.2 ⟨hargs a (by simp) ts₁ hfirst, hparts⟩

/-- What written tokens derive, the tokens that they stand for derive in the dialect. -/
theorem derives {c : Category} {us : List Token} {e : Expr} (hus : Derives .plain c us e)
    {ts : List Token} (hts : written us ts) : Derives d c ts e := by
  induction hus generalizing ts with
  | sumOfProduct _ ih => exact .sumOfProduct (ih hts)
  | @sum op _ _ _ _ hop hl _ ihl ihr =>
    have hproduct : Token.operator op ≠ .operator .multiply := by
      rcases hop with rfl | rfl <;> simp
    obtain ⟨ts₁, ts₂, rfl, h₁, h₂⟩ := h.apart (separates_operator _) hproduct hl.matched hts
    exact .sum hop (ihl h₁) (ihr h₂)
  | productOfSigned _ ih => exact .productOfSigned (ih hts)
  | product hop hl _ ihl ihr =>
    rcases h.separated _ _ _ _ (separates_operator _) hl.matched hts with
      ⟨ts₁, ts₂, rfl, h₁, h₂⟩ | ⟨hmultiply, ts₁, ts₂, rfl, h₁, h₂, hjoins, hsign⟩
    · exact .product hop (ihl h₁) (ihr h₂)
    · cases hmultiply
      exact .juxtaposed hjoins (ihl h₁) ((ihr h₂).power_of_signed hsign)
  | juxtaposed hjoins _ _ _ _ => exact False.elim hjoins
  | signedOfPower _ ih => exact .signedOfPower (ih hts)
  | minus _ ih =>
    obtain ⟨vs, rfl, hvs⟩ := h.sign (by simp) hts
    exact .minus (ih hvs)
  | plus _ ih =>
    obtain ⟨vs, rfl, hvs⟩ := h.sign (by simp) hts
    exact .plus (ih hvs)
  | powerOfAtom _ ih => exact .powerOfAtom (ih hts)
  | power hb _ ihb ihx =>
    obtain ⟨ts₁, ts₂, rfl, h₁, h₂⟩ := h.apart (separates_operator _) (by simp) hb.matched hts
    exact .power (ihb h₁) (ihx h₂)
  | number v =>
    rw [h.operand _ _ (.inl ⟨v, rfl⟩) hts]
    exact .number v
  | pi =>
    rw [h.operand _ _ (.inr (.inl rfl)) hts]
    exact .pi
  | answer =>
    rw [h.operand _ _ (.inr (.inr rfl)) hts]
    exact .answer
  | leaf hleaf => exact False.elim hleaf
  | bracketed hsum ih =>
    obtain ⟨vs, rfl, hvs⟩ := h.bracketed _ _ hsum.matched hts
    exact .bracketed (ih hvs)
  | call f arguments trees hargs ih =>
    let args := List.ofFn fun i => (arguments i, trees i)
    have hfst : args.map Prod.fst = List.ofFn arguments := List.map_ofFn
    have hsnd : args.map Prod.snd = List.ofFn trees := List.map_ofFn
    have hne : args ≠ [] := by
      have := Postfix.arity_pos f
      simp [args]
      omega
    have hmatched : ∀ a ∈ args, Matched a.1 := by
      simpa [args, List.mem_ofFn] using fun i => (hargs i).matched
    have hderives : ∀ a ∈ args, ∀ ts, written a.1 ts → Derives d .sum ts a.2 := by
      simpa [args, List.mem_ofFn] using fun i ts => @ih i ts
    have hall : Matched ([Token.comma].intercalate (List.ofFn arguments)) := by
      rw [← hfst]
      exact Token.matched_intercalate (by simpa using hmatched)
    rcases h.named f _ _ hall hts with ⟨vs, rfl, hbracket⟩ | hleaf
    · obtain ⟨vs, rfl, hvs⟩ := h.bracketed _ _ hall hbracket
      rw [← hfst] at hvs
      obtain ⟨parts, rfl, htrees, hparts⟩ := h.arguments hne hmatched hderives hvs
      have hlen : parts.length = f.arity := by
        simpa [args] using congrArg List.length htrees
      rw [← hsnd, ← htrees]
      exact Derives.call_of_list hlen hparts
    · exact .leaf (hleaf _ (.call f arguments trees hargs))

end ReadsBack

/-- A pass that writes a dialect out and can be read back gives tokens exactly their trees in it. -/
theorem WritesOut.ofInfix_eq_ok_iff {pass : List Token → List Token} (h : WritesOut d pass)
    {written : List Token → List Token → Prop} (hback : ReadsBack d written)
    (hpass : ∀ ts, written (pass ts) ts) {ts : List Token} {e : Expr} :
    Expr.ofInfix (pass ts) = .ok e ↔ Derives d .sum ts e := by
  rw [Expr.ofInfix_eq_ok_iff]
  exact ⟨fun he => hback.derives he (hpass ts), h.derives⟩

end SciCalc.Grammar
