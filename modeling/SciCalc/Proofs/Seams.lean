import SciCalc.Proofs.Nesting
import SciCalc.Token.Brackets
import SciCalc.Token.Mark
import SciCalc.Token.Percent
import SciCalc.Token.Product

/-!
# Rewriting in parts

The passes that prepare tokens look a token or two ahead. Joined tokens are rewritten part by part
as soon as nothing at the seam belongs together: no percent sign behind its literal, no juxtaposed
operands, no mark beside its literal. No pass changes how deep the tokens nest, and none hides that
tokens are more than brackets and plus signs.
-/

set_option autoImplicit false

namespace SciCalc.Token

/-- The last token of the first part and the first token of the second are related. -/
def Seam (p : Token → Token → Prop) (ts us : List Token) : Prop :=
  ∀ a ∈ ts.getLast?, ∀ b ∈ us.head?, p a b

/-- The end of the first part has the same seam. -/
theorem Seam.of_append {p : Token → Token → Prop} (ts : List Token) {us vs : List Token}
    (h : Seam p (ts ++ us) vs) : Seam p us vs := by
  intro a ha b hb
  exact h a (by simp [List.getLast?_append, Option.mem_def.1 ha]) b hb

/-- The end of the first part has the same seam. -/
theorem Seam.of_cons {p : Token → Token → Prop} {t : Token} {ts us : List Token}
    (h : Seam p (t :: ts) us) : Seam p ts us :=
  Seam.of_append [t] h

/-- The last token of the first part is the one at the seam. -/
theorem seam_append_singleton {p : Token → Token → Prop} {a : Token} {ts us : List Token} :
    Seam p (ts ++ [a]) us ↔ ∀ b ∈ us.head?, p a b := by simp [Seam]

/-- The first token of the second part is the one at the seam. -/
theorem seam_cons_right {p : Token → Token → Prop} {b : Token} {ts us : List Token} :
    Seam p ts (b :: us) ↔ ∀ a ∈ ts.getLast?, p a b := by simp [Seam]

/-! ## Percent signs -/

/-- A percent sign stands behind neither a literal nor a percent sign. -/
def NoPercent (a b : Token) : Prop := b = percent → a.isNumber = false ∧ a ≠ percent

/-- A percent sign that is not followed by another divides by the literal hundred. -/
theorem resolvePercent_percent {ts : List Token} (h : ts.head? ≠ some percent) :
    resolvePercent (percent :: ts) = operator .divide :: number 100 :: resolvePercent ts := by
  cases ts with
  | nil => rfl
  | cons t ts =>
    rw [resolvePercent]
    rintro us hus
    simp [hus] at h

/-- A token stays as it is, if it is no percent sign and none follows a literal. -/
theorem resolvePercent_cons {t : Token} {ts : List Token} (ht : t ≠ percent)
    (h : t.isNumber = true → ts.head? ≠ some percent) :
    resolvePercent (t :: ts) = t :: resolvePercent ts := by
  rw [resolvePercent]
  · rintro v us rfl rfl
    exact h rfl rfl
  · rintro us rfl -
    exact ht rfl
  · rintro rfl
    exact ht rfl

/-- Percent signs are resolved part by part. -/
theorem resolvePercent_append {ts us : List Token} (h : Seam NoPercent ts us) :
    resolvePercent (ts ++ us) = resolvePercent ts ++ resolvePercent us := by
  fun_induction resolvePercent ts with
  | case1 v ts ih =>
    simp only [List.cons_append, resolvePercent, ih (Seam.of_append [_, _] h),
      List.append_assoc]
  | case2 ts ih =>
    simp only [List.cons_append, resolvePercent, ih (Seam.of_append [_, _] h),
      List.append_assoc]
  | case3 ts hts ih =>
    have hhead : (ts ++ us).head? ≠ some percent := by
      cases ts with
      | nil => exact fun hus => (h percent rfl percent hus rfl).2 rfl
      | cons t ts => simpa using hts ts
    rw [List.cons_append, resolvePercent_percent hhead, ih h.of_cons]
    rfl
  | case4 t ts h₁ h₂ h₃ ih =>
    have hhead : t.isNumber = true → (ts ++ us).head? ≠ some percent := by
      intro ht
      cases ts with
      | nil =>
        intro hus
        have := (h t rfl percent hus rfl).1
        simp [ht] at this
      | cons b ts =>
        cases t with
        | number v => simpa using h₁ v ts rfl
        | _ => cases ht
    rw [List.cons_append, resolvePercent_cons h₃ hhead, ih h.of_cons, List.cons_append]
  | case5 => rfl

/-! ## Juxtaposed operands -/

/-- The neighbours are no juxtaposed operands. -/
def NoProduct (a b : Token) : Prop := juxtaposed a b = false

/-- No product sign is put behind a token that is not juxtaposed with the next one. -/
theorem insertProducts_cons {a : Token} {ts : List Token} (h : ∀ b ∈ ts.head?, NoProduct a b) :
    insertProducts (a :: ts) = a :: insertProducts ts := by
  cases ts with
  | nil => rfl
  | cons b ts =>
    have hab : juxtaposed a b = false := h b rfl
    rw [insertProducts, if_neg (by simp [hab])]

/-- A token stays in front, perhaps with a product sign behind it. -/
theorem exists_insertProducts_cons (a : Token) (ts : List Token) :
    ∃ sign, insertProducts (a :: ts) = a :: (sign ++ insertProducts ts) := by
  cases ts with
  | nil => exact ⟨[], rfl⟩
  | cons b ts =>
    rw [insertProducts]
    split
    · exact ⟨[operator .multiply], rfl⟩
    · exact ⟨[], rfl⟩

/-- The last token stays last. -/
theorem exists_insertProducts_append_singleton (ts : List Token) (a : Token) :
    ∃ us, insertProducts (ts ++ [a]) = us ++ [a] := by
  induction ts with
  | nil => exact ⟨[], rfl⟩
  | cons t ts ih =>
    obtain ⟨us, hus⟩ := ih
    obtain ⟨sign, hsign⟩ := exists_insertProducts_cons t (ts ++ [a])
    exact ⟨t :: (sign ++ us), by rw [List.cons_append, hsign, hus]; simp⟩

/-- Product signs are put in part by part. -/
theorem insertProducts_append {ts us : List Token} (h : Seam NoProduct ts us) :
    insertProducts (ts ++ us) = insertProducts ts ++ insertProducts us := by
  fun_induction insertProducts ts with
  | case1 a b ts hab ih =>
    rw [List.cons_append, List.cons_append, insertProducts, if_pos hab, ← List.cons_append,
      ih h.of_cons]
    rfl
  | case2 a b ts hab ih =>
    rw [List.cons_append, List.cons_append, insertProducts, if_neg hab, ← List.cons_append,
      ih h.of_cons]
    rfl
  | case3 ts hts =>
    cases ts with
    | nil => rfl
    | cons a ts =>
      cases ts with
      | nil => exact insertProducts_cons fun b hb => h a rfl b hb
      | cons b ts => exact absurd rfl (hts a b ts)

/-! ## Marks -/

/-- A factorial mark does not stand behind a literal. -/
def NoFactorial (a b : Token) : Prop := b = factorialMark → a.isNumber = false

/-- A token stays as it is, if it is no literal before a factorial mark. -/
theorem expandFactorials_cons {t : Token} {ts : List Token}
    (h : t.isNumber = true → ts.head? ≠ some factorialMark) :
    expandFactorials (t :: ts) = t :: expandFactorials ts := by
  rw [expandFactorials]
  rintro v us rfl rfl
  exact h rfl rfl

/-- Factorial marks are written as calls part by part. -/
theorem expandFactorials_append {ts us : List Token} (h : Seam NoFactorial ts us) :
    expandFactorials (ts ++ us) = expandFactorials ts ++ expandFactorials us := by
  fun_induction expandFactorials ts with
  | case1 v ts ih =>
    simp only [List.cons_append, expandFactorials, ih (Seam.of_append [_, _] h),
      List.append_assoc]
  | case2 t ts hts ih =>
    have hhead : t.isNumber = true → (ts ++ us).head? ≠ some factorialMark := by
      intro ht
      cases ts with
      | nil =>
        intro hus
        have := h t rfl factorialMark hus rfl
        simp [ht] at this
      | cons b ts =>
        cases t with
        | number v => simpa using hts v ts rfl
        | _ => cases ht
    rw [List.cons_append, expandFactorials_cons hhead, ih h.of_cons, List.cons_append]
  | case3 => rfl

/-- A mark between literals does not stand beside one. -/
def NoMark (mark a b : Token) : Prop :=
  (b = mark → a.isNumber = false) ∧ (b.isNumber = true → a ≠ mark)

/-- A token stays as it is, if it is no literal before a mark and a literal. -/
theorem expandBetween_cons {mark t : Token} (f : MathFunction) {ts : List Token}
    (h : t.isNumber = true → ∀ w us, ts ≠ mark :: number w :: us) :
    expandBetween mark f (t :: ts) = t :: expandBetween mark f ts := by
  by_cases hpair : ∃ v a w us, t = number v ∧ ts = a :: number w :: us
  · obtain ⟨v, a, w, us, rfl, rfl⟩ := hpair
    have ha : a ≠ mark := by
      rintro rfl
      exact h rfl w us rfl
    rw [expandBetween, if_neg ha]
  · rw [expandBetween]
    rintro v a w us rfl rfl
    exact hpair ⟨v, a, w, us, rfl, rfl⟩

/-- Marks between literals are written as calls part by part. -/
theorem expandBetween_append (mark : Token) (f : MathFunction) {ts us : List Token}
    (h : Seam (NoMark mark) ts us) :
    expandBetween mark f (ts ++ us) = expandBetween mark f ts ++ expandBetween mark f us := by
  fun_induction expandBetween mark f ts with
  | case1 v w ts ih =>
    have ih := ih (Seam.of_append [_, _, _] h)
    rw [List.cons_append, List.cons_append, List.cons_append, expandBetween, if_pos rfl, ih,
      List.append_assoc]
  | case2 v t w ts ht ih =>
    rw [List.cons_append, List.cons_append, List.cons_append, expandBetween, if_neg ht,
      ← List.cons_append, ← List.cons_append, ih h.of_cons]
    rfl
  | case3 t ts hts ih =>
    have hpair : t.isNumber = true → ∀ w vs, ts ++ us ≠ mark :: number w :: vs := by
      rintro ht w vs heq
      cases t with
      | number v =>
        cases ts with
        | nil =>
          have hus : mark ∈ us.head? := by rw [show us = mark :: number w :: vs from heq]; rfl
          have := (h (number v) rfl mark hus).1 rfl
          cases this
        | cons a ts =>
          obtain ⟨rfl, hrest⟩ := List.cons.inj heq
          cases ts with
          | nil =>
            have hus : number w ∈ us.head? := by rw [show us = number w :: vs from hrest]; rfl
            exact (h.of_cons a rfl (number w) hus).2 rfl rfl
          | cons b ts =>
            obtain ⟨rfl, -⟩ := List.cons.inj hrest
            exact hts v a w ts rfl rfl
      | _ => cases ht
    rw [List.cons_append, expandBetween_cons f hpair, ih h.of_cons, List.cons_append]
  | case4 => rfl

/-- A token that no mark takes and that is no mark. -/
def Inert (t : Token) : Prop :=
  t.isNumber = false ∧ t ≠ factorialMark ∧ t ≠ permutationMark ∧ t ≠ combinationMark

/-- An opening bracket is inert. -/
theorem inert_opening : Inert opening := by simp [Inert, isNumber]

/-- A closing bracket is inert. -/
theorem inert_closing : Inert closing := by simp [Inert, isNumber]

/-- An operator is inert. -/
theorem inert_operator (op : Operator) : Inert (operator op) := by simp [Inert, isNumber]

/-- Marks are expanded behind a token that is no literal. -/
theorem expandMarks_cons {t : Token} (ht : t.isNumber = false) (us : List Token) :
    expandMarks (t :: us) = t :: expandMarks us := by
  simp only [expandMarks]
  rw [expandFactorials_cons (by simp [ht]), expandBetween_cons _ (by simp [ht]),
    expandBetween_cons _ (by simp [ht])]

/-- Marks are expanded on both sides of an inert token. -/
theorem expandMarks_append_cons {t : Token} (ht : Inert t) (ts us : List Token) :
    expandMarks (ts ++ t :: us) = expandMarks ts ++ t :: expandMarks us := by
  obtain ⟨hnumber, hfactorial, hpermutation, hcombination⟩ := ht
  have hfirst : expandFactorials (ts ++ t :: us) =
      expandFactorials ts ++ t :: expandFactorials us := by
    rw [expandFactorials_append (seam_cons_right.2 fun a _ h => absurd h hfactorial),
      expandFactorials_cons (by simp [hnumber])]
  have hbetween (mark : Token) (f : MathFunction) (hmark : t ≠ mark) (ts us : List Token) :
      expandBetween mark f (ts ++ t :: us) =
        expandBetween mark f ts ++ t :: expandBetween mark f us := by
    have hseam : Seam (NoMark mark) ts (t :: us) :=
      seam_cons_right.2 fun a _ => ⟨fun h => absurd h hmark, by simp [hnumber]⟩
    rw [expandBetween_append mark f hseam, expandBetween_cons f (by simp [hnumber])]
  simp only [expandMarks, hfirst, hbetween _ _ hpermutation, hbetween _ _ hcombination]

/-! ## Depth -/

/-- Percent signs are resolved without a trace in the depth. -/
theorem depthAfter_resolvePercent (n : Nat) (ts : List Token) :
    depthAfter n (resolvePercent ts) = depthAfter n ts := by
  have hundredth (v : Float) : Matched (hundredth v) := rfl
  fun_induction resolvePercent ts generalizing n with
  | case1 v ts ih =>
    rw [(hundredth v).depthAfter_append, ih]
    cases n <;> rfl
  | case2 ts ih =>
    rw [depthAfter_cons_of_ne (by simp) (by simp), (hundredth 100).depthAfter_append, ih]
    cases n <;> rfl
  | case3 ts hts ih =>
    rw [depthAfter_cons_of_ne (by simp) (by simp), depthAfter_cons_of_ne (by simp) (by simp), ih,
      depthAfter_cons_of_ne (by simp) (by simp)]
  | case4 t ts _ _ _ ih => exact depthAfter_cons_congr t ih n
  | case5 => rfl

/-- Product signs leave no trace in the depth. -/
theorem depthAfter_insertProducts (n : Nat) (ts : List Token) :
    depthAfter n (insertProducts ts) = depthAfter n ts := by
  fun_induction insertProducts ts generalizing n with
  | case1 a b ts _ ih =>
    refine depthAfter_cons_congr a (fun n => ?_) n
    rw [depthAfter_cons_of_ne (by simp) (by simp), ih]
  | case2 a b ts _ ih => exact depthAfter_cons_congr a ih n
  | case3 ts _ => rfl

/-- Calls of one literal leave no trace in the depth. -/
theorem depthAfter_expandFactorials (n : Nat) (ts : List Token) :
    depthAfter n (expandFactorials ts) = depthAfter n ts := by
  fun_induction expandFactorials ts generalizing n with
  | case1 v ts ih =>
    have hcall : Matched (callOne .factorial v) := rfl
    rw [hcall.depthAfter_append, ih, depthAfter_cons_of_ne (by simp) (by simp),
      depthAfter_cons_of_ne (by simp) (by simp)]
  | case2 t ts _ ih => exact depthAfter_cons_congr t ih n
  | case3 => rfl

/-- Calls of two literals leave no trace in the depth. -/
theorem depthAfter_expandBetween {mark : Token} (ho : mark ≠ opening) (hc : mark ≠ closing)
    (f : MathFunction) (n : Nat) (ts : List Token) :
    depthAfter n (expandBetween mark f ts) = depthAfter n ts := by
  fun_induction expandBetween mark f ts generalizing n with
  | case1 v w ts ih =>
    have hcall : Matched (callTwo f v w) := rfl
    rw [hcall.depthAfter_append, ih, depthAfter_cons_of_ne (by simp) (by simp),
      depthAfter_cons_of_ne ho hc, depthAfter_cons_of_ne (by simp) (by simp)]
  | case2 v t w ts _ ih => exact depthAfter_cons_congr (number v) ih n
  | case3 t ts _ ih => exact depthAfter_cons_congr t ih n
  | case4 => rfl

/-- Marks are expanded without a trace in the depth. -/
theorem depthAfter_expandMarks (n : Nat) (ts : List Token) :
    depthAfter n (expandMarks ts) = depthAfter n ts := by
  rw [expandMarks, depthAfter_expandBetween (by simp) (by simp),
    depthAfter_expandBetween (by simp) (by simp), depthAfter_expandFactorials]

/-- The closing brackets that are missing are as many as are open. -/
theorem missingClosings_of_depthAfter {m : Nat} {ts : List Token} (h : depthAfter 0 ts = some m) :
    missingClosings ts = m := by
  have := count_of_depthAfter h
  rw [missingClosings]
  omega

end SciCalc.Token
