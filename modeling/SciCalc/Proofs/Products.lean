import Mathlib.Data.List.Chain
import SciCalc.Proofs.Dialects
import SciCalc.Proofs.Seams

/-!
# Operands side by side

Where product signs are put between juxtaposed operands, a product may also go on with a power and
no sign, except that no literal follows a literal. The pass only looks at two neighbours. That is
enough for the grammar: every part of an expression ends with a token that may end an operand, and a
power begins with one that may start an operand, so a sign is put exactly at the seam of the two.
Signs, commas and closing brackets start no operand, so the pass goes through the tokens on both
sides of them. On the way back every separator of the result was there before, or it is a product
sign that the pass put between two operands.
-/

set_option autoImplicit false

namespace SciCalc

open Grammar (Derives Dialect Separates)

namespace Token

/-! ## What the pass puts in -/

/-- Nothing is taken away. -/
theorem sublist_insertProducts (ts : List Token) : ts.Sublist (insertProducts ts) := by
  fun_induction insertProducts ts with
  | case1 a b ts _ ih => exact (ih.cons _).cons_cons a
  | case2 a b ts _ ih => exact ih.cons_cons a
  | case3 ts _ => exact List.Sublist.refl ts

/-- Nothing but product signs is put in. -/
theorem filter_insertProducts {p : Token → Bool} (hp : p (operator .multiply) = false)
    (ts : List Token) : (insertProducts ts).filter p = ts.filter p := by
  fun_induction insertProducts ts with
  | case1 a b ts _ ih =>
    rw [List.filter_cons, List.filter_cons_of_neg (by simp [hp]), ih, ← List.filter_cons]
  | case2 a b ts _ ih => rw [List.filter_cons, ih, ← List.filter_cons]
  | case3 ts _ => rfl

/-- The first token stays first. -/
theorem head?_insertProducts (ts : List Token) : (insertProducts ts).head? = ts.head? := by
  fun_cases insertProducts ts <;> rfl

/-- Afterwards no operands are juxtaposed. -/
theorem isChain_insertProducts (ts : List Token) : (insertProducts ts).IsChain NoProduct := by
  fun_induction insertProducts ts with
  | case1 a b ts _ ih =>
    have hbehind : ∀ t, NoProduct (operator .multiply) t := fun _ => rfl
    have hbefore : NoProduct a (operator .multiply) := by simp [NoProduct, juxtaposed, startsValue]
    exact .cons_cons hbefore (List.isChain_cons.2 ⟨fun t _ => hbehind t, ih⟩)
  | case2 a b ts hab ih =>
    refine List.isChain_cons.2 ⟨fun t ht => ?_, ih⟩
    rw [head?_insertProducts] at ht
    cases ht
    simpa [NoProduct] using hab
  | case3 ts hts =>
    rcases ts with _ | ⟨a, _ | ⟨b, ts⟩⟩
    · exact .nil
    · exact .singleton a
    · exact absurd rfl (hts a b ts)

/-- Where no operands are juxtaposed nothing is put in. -/
theorem insertProducts_of_isChain {ts : List Token} (h : ts.IsChain NoProduct) :
    insertProducts ts = ts := by
  induction ts with
  | nil => rfl
  | cons a ts ih =>
    obtain ⟨hfirst, hrest⟩ := List.isChain_cons.1 h
    rw [insertProducts_cons hfirst, ih hrest]

/-- Nothing is left for a second round. -/
theorem insertProducts_insertProducts (ts : List Token) :
    insertProducts (insertProducts ts) = insertProducts ts :=
  insertProducts_of_isChain (isChain_insertProducts ts)

/-! ## Where the pass comes apart -/

/-- A token that starts no operand is juxtaposed with nothing before it. -/
theorem noProduct_of_startsValue {t : Token} (ht : t.startsValue = false) (a : Token) :
    NoProduct a t := by
  simp [NoProduct, juxtaposed, ht]

/-- A token that ends no operand is juxtaposed with nothing behind it. -/
theorem noProduct_of_endsValue {t : Token} (ht : t.endsValue = false) (b : Token) :
    NoProduct t b := by
  simp [NoProduct, juxtaposed, ht]

/-- A product sign is put between two operands. -/
theorem insertProducts_cons_juxtaposed {a b : Token} (hab : juxtaposed a b = true)
    (ts : List Token) :
    insertProducts (a :: b :: ts) = a :: operator .multiply :: insertProducts (b :: ts) := by
  rw [insertProducts, if_pos hab]

/-- What is put behind a token does not depend on where the tokens behind it end. -/
theorem insertProducts_cons_of_append {a : Token} {ts us : List Token} (front : List Token)
    (hend : ts = [] → ∀ b ∈ us.head?, NoProduct a b)
    (h : insertProducts (a :: (ts ++ us)) = front ++ insertProducts (ts ++ us)) :
    insertProducts (a :: ts) = front ++ insertProducts ts := by
  cases ts with
  | nil =>
    have hus : insertProducts (a :: us) = [a] ++ insertProducts us := insertProducts_cons (hend rfl)
    have hfront : front = [a] := List.append_cancel_right (h.symm.trans hus)
    rw [hfront]
    rfl
  | cons b ts =>
    rw [List.cons_append, insertProducts] at h
    rw [insertProducts]
    split at h
    case isTrue hab =>
      have hfront : [a, operator .multiply] = front := List.append_cancel_right h
      rw [if_pos hab, ← hfront]
      rfl
    case isFalse hab =>
      have hfront : [a] = front := List.append_cancel_right h
      rw [if_neg hab, ← hfront]
      rfl

/-- A product sign is put at the seam of two operands. -/
theorem insertProducts_append_juxtaposed {a b : Token} (hab : juxtaposed a b = true)
    (ts us : List Token) :
    insertProducts ((ts ++ [a]) ++ (b :: us)) =
      insertProducts (ts ++ [a]) ++ operator .multiply :: insertProducts (b :: us) := by
  induction ts with
  | nil => exact insertProducts_cons_juxtaposed hab us
  | cons t ts ih =>
    obtain ⟨sign, hsign⟩ := exists_insertProducts_cons t ((ts ++ [a]) ++ (b :: us))
    have hfront : insertProducts (t :: (ts ++ [a])) = (t :: sign) ++ insertProducts (ts ++ [a]) :=
      insertProducts_cons_of_append (t :: sign) (by simp) hsign
    rw [List.cons_append, List.cons_append, hsign, ih, hfront]
    simp only [List.cons_append, List.append_assoc]

/-- Product signs are put in on both sides of a token that starts no operand. -/
theorem insertProducts_append_cons {t : Token} (ht : t.startsValue = false) (ts us : List Token) :
    insertProducts (ts ++ t :: us) = insertProducts ts ++ insertProducts (t :: us) :=
  insertProducts_append (seam_cons_right.2 fun a _ => noProduct_of_startsValue ht a)

/-- A token that ends no operand comes off the front. -/
theorem exists_of_insertProducts_cons {t : Token} (ht : t.endsValue = false) {us ts : List Token}
    (h : insertProducts ts = t :: us) : ∃ vs, ts = t :: vs ∧ insertProducts vs = us := by
  have hhead : ts.head? = some t := by rw [← head?_insertProducts, h]; rfl
  obtain ⟨vs, rfl⟩ := List.head?_eq_some_iff.1 hhead
  rw [insertProducts_cons fun b _ => noProduct_of_endsValue ht b] at h
  exact ⟨vs, rfl, (List.cons.inj h).2⟩

/-- A token stays in front, with a product sign behind it if the next one is juxtaposed with it. -/
theorem insertProducts_cons_cases (a : Token) (ts : List Token) :
    insertProducts (a :: ts) = a :: insertProducts ts ∨
      ∃ b us, ts = b :: us ∧ juxtaposed a b = true ∧
        insertProducts (a :: ts) = a :: operator .multiply :: insertProducts ts := by
  cases ts with
  | nil => exact .inl rfl
  | cons b us =>
    by_cases hab : juxtaposed a b = true
    · exact .inr ⟨b, us, rfl, hab, insertProducts_cons_juxtaposed hab us⟩
    · refine .inl (insertProducts_cons fun c hc => ?_)
      cases hc
      simpa [NoProduct] using hab

/-- The result for the tokens comes apart at `t`, into what stands before and behind it. -/
inductive ComesApart (t : Token) (ts us vs : List Token) : Prop where
  /-- The token stood there before. -/
  | kept {ts₁ ts₂ : List Token} : ts = ts₁ ++ t :: ts₂ → insertProducts ts₁ = us →
      insertProducts (t :: ts₂) = t :: vs → ComesApart t ts us vs
  /-- The token is the product sign that was put between two operands. -/
  | put {ts₁ ts₂ : List Token} {a b : Token} : t = operator .multiply → juxtaposed a b = true →
      ts = (ts₁ ++ [a]) ++ (b :: ts₂) → insertProducts (ts₁ ++ [a]) = us →
      insertProducts (b :: ts₂) = vs → ComesApart t ts us vs

/-- One more token in front, with what is put behind it. -/
theorem ComesApart.cons {t a : Token} (ht : t.startsValue = false) {ts us vs : List Token}
    (front : List Token) (hfront : insertProducts (a :: ts) = front ++ insertProducts ts)
    (h : ComesApart t ts us vs) : ComesApart t (a :: ts) (front ++ us) vs := by
  cases h with
  | @kept ts₁ ts₂ hts hbefore hbehind =>
    have hno : ts₁ = [] → ∀ b ∈ (t :: ts₂).head?, NoProduct a b := by
      rintro - b ⟨⟩
      exact noProduct_of_startsValue ht a
    subst hts
    exact .kept rfl (by rw [insertProducts_cons_of_append front hno hfront, hbefore]) hbehind
  | @put ts₁ ts₂ c d hproduct hcd hts hbefore hbehind =>
    have hno : ts₁ ++ [c] = [] → ∀ b ∈ (d :: ts₂).head?, NoProduct a b := by simp
    subst hts
    exact @put _ _ _ _ (a :: ts₁) ts₂ c d hproduct hcd rfl
      (by rw [← hbefore]; exact insertProducts_cons_of_append front hno hfront) hbehind

/-- The result comes apart at every token that starts no operand. -/
theorem comesApart_of_insertProducts {t : Token} (ht : t.startsValue = false)
    {us vs ts : List Token} (h : insertProducts ts = us ++ t :: vs) : ComesApart t ts us vs := by
  induction ts generalizing us with
  | nil => simp [insertProducts] at h
  | cons a ts ih =>
    rcases us with _ | ⟨u, us⟩
    · obtain ⟨sign, hsign⟩ := exists_insertProducts_cons a ts
      obtain ⟨rfl, -⟩ := List.cons.inj (hsign.symm.trans h)
      exact .kept (List.nil_append _).symm rfl h
    rcases insertProducts_cons_cases a ts with hkeep | ⟨b, rest, rfl, hab, hput⟩
    · obtain ⟨rfl, hbehind⟩ := List.cons.inj (hkeep.symm.trans h)
      exact (ih hbehind).cons ht [a] hkeep
    · obtain ⟨rfl, hsign⟩ := List.cons.inj (hput.symm.trans h)
      rcases us with _ | ⟨_, us⟩
      · obtain ⟨rfl, rfl⟩ := List.cons.inj hsign
        exact @ComesApart.put _ _ _ _ [] rest a b rfl hab rfl rfl rfl
      · obtain ⟨rfl, hbehind⟩ := List.cons.inj hsign
        exact (ih hbehind).cons ht [a, operator .multiply] hput

end Token

/-! ## The dialect with juxtaposition -/

namespace Grammar

open Token

/-- Operands side by side are a product, unless a literal stands directly behind a literal. -/
def Dialect.juxtaposing : Dialect where
  leaf _ _ := False
  joins ts us := Seam (fun a b => (a.isNumber && b.isNumber) = false) ts us

/-- What is derived ends with a token that may end an operand. -/
theorem Derives.exists_last {c : Category} {ts : List Token} {e : Expr}
    (h : Derives .juxtaposing c ts e) : ∃ us a, ts = us ++ [a] ∧ a.endsValue = true := by
  have behind {us : List Token} (ts : List Token)
      (h : ∃ vs a, us = vs ++ [a] ∧ a.endsValue = true) :
      ∃ vs a, ts ++ us = vs ++ [a] ∧ a.endsValue = true := by
    obtain ⟨vs, a, rfl, ha⟩ := h
    exact ⟨ts ++ vs, a, (List.append_assoc ..).symm, ha⟩
  induction h with
  | sumOfProduct _ ih => exact ih
  | sum _ _ _ _ ih => exact behind _ (behind [_] ih)
  | productOfSigned _ ih => exact ih
  | product _ _ _ _ ih => exact behind _ (behind [_] ih)
  | juxtaposed _ _ _ _ ih => exact behind _ ih
  | signedOfPower _ ih => exact ih
  | minus _ ih => exact behind [_] ih
  | plus _ ih => exact behind [_] ih
  | powerOfAtom _ ih => exact ih
  | power _ _ _ ih => exact behind _ (behind [_] ih)
  | number v => exact ⟨[], _, rfl, rfl⟩
  | pi => exact ⟨[], _, rfl, rfl⟩
  | answer => exact ⟨[], _, rfl, rfl⟩
  | leaf hleaf => exact False.elim hleaf
  | bracketed _ _ => exact behind [_] ⟨_, _, rfl, rfl⟩
  | call f arguments trees _ _ => exact behind [_, _] ⟨_, _, rfl, rfl⟩

/-- A power begins with a token that may start an operand. -/
theorem Derives.exists_first {ts : List Token} {e : Expr} (h : Derives .juxtaposing .power ts e) :
    ∃ a us, ts = a :: us ∧ a.startsValue = true := by
  have ofAtom {ts : List Token} {e : Expr} (h : Derives .juxtaposing .atom ts e) :
      ∃ a us, ts = a :: us ∧ a.startsValue = true := by
    cases h with
    | leaf hleaf => exact False.elim hleaf
    | _ => exact ⟨_, _, rfl, rfl⟩
  cases h with
  | powerOfAtom h => exact ofAtom h
  | power h _ =>
    obtain ⟨a, us, rfl, ha⟩ := ofAtom h
    exact ⟨a, _, rfl, ha⟩

/-- What stands between operands starts no value. -/
theorem Separates.startsValue {t : Token} (h : Separates t) : t.startsValue = false := by
  rcases h with rfl | ⟨op, rfl⟩ <;> rfl

/-- What stands between operands ends no value. -/
theorem Separates.endsValue {t : Token} (h : Separates t) : t.endsValue = false := by
  rcases h with rfl | ⟨op, rfl⟩ <;> rfl

/-- Inserting products writes out the juxtaposing dialect. -/
theorem writesOut_insertProducts : WritesOut .juxtaposing insertProducts where
  nil := rfl
  operand _ _ := rfl
  separated ts t us ht := by
    rw [insertProducts_append_cons ht.startsValue,
      insertProducts_cons fun b _ => noProduct_of_endsValue ht.endsValue b]
  opens t ts ht := by
    refine insertProducts_cons fun b _ => noProduct_of_endsValue ?_ b
    rcases ht with rfl | ⟨f, rfl⟩ <;> rfl
  closes ts := insertProducts_append_cons rfl ts []
  leaf _ _ hleaf := hleaf.elim
  joined ts us l r hjoins hl hr := by
    obtain ⟨ts, a, rfl, ha⟩ := hl.exists_last
    obtain ⟨b, us, rfl, hb⟩ := hr.exists_first
    have hab : juxtaposed a b = true := by
      have hliterals := hjoins a (by simp) b rfl
      rw [juxtaposed, ha, hb, hliterals]
      rfl
    exact insertProducts_append_juxtaposed hab ts us

/-- With its products inserted the juxtaposing dialect is read back. -/
theorem readsBack_insertProducts :
    ReadsBack .juxtaposing fun us ts => insertProducts ts = us where
  nil ts h := List.sublist_nil.1 (h ▸ sublist_insertProducts ts)
  operand t ts _ h := by
    have hfewer : ts.Sublist [t] := h ▸ sublist_insertProducts ts
    have hsome : [t].length ≤ ts.length := by
      cases ts with
      | nil => cases h
      | cons a ts => simp
    exact hfewer.eq_of_length_le hsome
  separated us t vs ts ht _ h := by
    cases comesApart_of_insertProducts ht.startsValue h with
    | @kept ts₁ ts₂ hts hus hbehind =>
      rw [insertProducts_cons fun b _ => noProduct_of_endsValue ht.endsValue b] at hbehind
      exact .inl ⟨ts₁, ts₂, hts, hus, (List.cons.inj hbehind).2⟩
    | @put ts₁ ts₂ a b hproduct hab hts hus hvs =>
      rw [juxtaposed, Bool.and_eq_true, Bool.and_eq_true, Bool.not_eq_true'] at hab
      obtain ⟨⟨-, hstarts⟩, hliterals⟩ := hab
      refine .inr ⟨hproduct, ts₁ ++ [a], b :: ts₂, hts, hus, hvs, ?_, ?_⟩
      · exact seam_append_singleton.2 fun c hc => by cases hc; exact hliterals
      · rintro op ⟨⟩
        cases hstarts
  bracketed us ts _ h := by
    obtain ⟨ts, rfl, hinside⟩ := exists_of_insertProducts_cons rfl h
    cases comesApart_of_insertProducts rfl hinside with
    | @kept vs rest hts hvs hrest =>
      have hend : (closing :: rest).Sublist [closing] := hrest ▸ sublist_insertProducts _
      rw [List.sublist_nil.1 (List.cons_sublist_cons.1 hend)] at hts
      exact ⟨vs, by rw [hts], hvs⟩
    | put hproduct => cases hproduct
  named f us ts _ h := .inl (exists_of_insertProducts_cons rfl h)

end Grammar

/--
Between juxtaposed operands product signs are put in and nothing else; afterwards only literals
stand side by side, and a second round changes nothing. The trees of the result are exactly those
that the tokens have where a product may go on with a power and no sign, unless a literal follows a
literal.
-/
theorem ofInfix_insertProducts_iff_juxtaposing (ts : List Token) :
    (ts.Sublist (Token.insertProducts ts) ∧
        (Token.insertProducts ts).filter (· ≠ .operator .multiply) =
          ts.filter (· ≠ .operator .multiply)) ∧
      (Token.insertProducts ts).IsChain (fun a b =>
        a.endsValue = true → b.startsValue = true → a.isNumber = true ∧ b.isNumber = true) ∧
      Token.insertProducts (Token.insertProducts ts) = Token.insertProducts ts ∧
      ∀ e, Expr.ofInfix (Token.insertProducts ts) = .ok e ↔ Derives .juxtaposing .sum ts e := by
  have hneighbours (a b : Token) (h : Token.NoProduct a b) :
      a.endsValue = true → b.startsValue = true → a.isNumber = true ∧ b.isNumber = true := by
    intro ha hb
    simpa [Token.NoProduct, Token.juxtaposed, ha, hb] using h
  refine ⟨⟨Token.sublist_insertProducts ts, Token.filter_insertProducts (by simp) ts⟩,
    (Token.isChain_insertProducts ts).imp hneighbours, Token.insertProducts_insertProducts ts,
    fun e => ?_⟩
  exact Grammar.writesOut_insertProducts.ofInfix_eq_ok_iff Grammar.readsBack_insertProducts
    fun _ => rfl

example : Expr.ofInfix (Token.insertProducts [.number 6, .operator .divide, .number 2, .pi]) =
    .ok (.binary .multiply (.binary .divide (.number 6) (.number 2)) .pi) := rfl

end SciCalc
