import SciCalc.Proofs.Workings

/-!
# Signed literals without their brackets

A literal with a sign may stand in brackets or without them. Without them it stands for the same as
long as nothing before it takes the sign for a difference and nothing behind it takes the literal
away from the sign. This is a relation between two lists of tokens, with the brackets and without.
Every pass of the preparation keeps it, and the conversion to postfix answers the same for both: it
is at most one negation behind, until the next token or the end releases it.

Where something does take a literal away from its sign, the relation goes no further, and the two
lists have different trees: behind the literal one writes its negation and the other something else.
-/

set_option autoImplicit false

namespace SciCalc

namespace Token

/-- Whether an operand must follow the token. -/
def awaitsOperand : Token → Bool
  | operator _ | opening | comma => true
  | _ => false

/-- Whether the token, behind a literal with a sign, leaves the literal to its sign. -/
def leavesSign : Token → Bool
  | operator .raise | number _ | percent | factorialMark | permutationMark | combinationMark =>
    false
  | _ => true

/-- A token that leaves a literal to its sign is itself no literal, and it takes none. -/
theorem ne_of_leavesSign {t : Token} (h : t.leavesSign = true) :
    t.isNumber = false ∧ t ≠ percent ∧ t ≠ factorialMark ∧ t ≠ permutationMark ∧
      t ≠ combinationMark := by
  revert h
  cases t <;> simp [leavesSign, isNumber]

/-- Behind a literal no operand is awaited. -/
theorem awaitsOperand_of_isNumber {t : Token} (h : t.isNumber = true) :
    t.awaitsOperand = false := by
  cases t <;> first | rfl | cases h

/-- What comes next, if anything, leaves a literal to its sign. -/
def LeavesSign (ts : List Token) : Prop := ∀ t ∈ ts.head?, t.leavesSign = true

namespace LeavesSign

variable {ts : List Token} (h : LeavesSign ts)

include h

/-- Once percent signs are divided, what comes next still leaves a literal to its sign. -/
theorem resolvePercent : LeavesSign (resolvePercent ts) := by
  cases ts with
  | nil => exact h
  | cons t ts =>
    obtain ⟨hnumber, hpercent, -⟩ := ne_of_leavesSign (h t rfl)
    rw [resolvePercent_cons hpercent (by simp [hnumber])]
    exact h

/-- Once products are inserted, what comes next still leaves a literal to its sign. -/
theorem insertProducts : LeavesSign (insertProducts ts) := by
  cases ts with
  | nil => exact h
  | cons t ts =>
    obtain ⟨sign, hsign⟩ := exists_insertProducts_cons t ts
    rw [hsign]
    exact h

/-- Once factorials are written out, what comes next still leaves a literal to its sign. -/
theorem expandFactorials : LeavesSign (expandFactorials ts) := by
  cases ts with
  | nil => exact h
  | cons t ts =>
    obtain ⟨hnumber, -⟩ := ne_of_leavesSign (h t rfl)
    rw [expandFactorials_cons (by simp [hnumber])]
    exact h

/-- Once a mark is written out, what comes next still leaves a literal to its sign. -/
theorem expandBetween (mark : Token) (f : MathFunction) :
    LeavesSign (expandBetween mark f ts) := by
  cases ts with
  | nil => exact h
  | cons t ts =>
    obtain ⟨hnumber, -⟩ := ne_of_leavesSign (h t rfl)
    rw [expandBetween_cons f (by simp [hnumber])]
    exact h

end LeavesSign

/--
The tokens begin with the literal and what takes it from a sign before it: as it is read, or as a
pass has written it out.
-/
inductive TakesLiteral (v : Float) : List Token → Prop where
  | behind {t : Token} (ts : List Token) : t.leavesSign = false → t.isNumber = false →
      TakesLiteral v (number v :: t :: ts)
  | hundredth (ts : List Token) : TakesLiteral v (hundredth v ++ ts)
  | one (f : MathFunction) (ts : List Token) : TakesLiteral v (callOne f v ++ ts)
  | two (f : MathFunction) (w : Float) (ts : List Token) : TakesLiteral v (callTwo f v w ++ ts)

/--
The second tokens are the first ones without the brackets around some literals with a minus sign:
to the end, or, if the first flag is set, to a literal that is taken from its sign. The second flag
tells whether an operand is awaited before them.
-/
inductive Unbracketed (taken : Bool) : Bool → List Token → List Token → Prop where
  | nil (awaited : Bool) : taken = false → Unbracketed taken awaited [] []
  | keep (awaited : Bool) (t : Token) {ts us : List Token} :
      Unbracketed taken t.awaitsOperand ts us → Unbracketed taken awaited (t :: ts) (t :: us)
  | literal (v : Float) {ts us : List Token} : LeavesSign us →
      Unbracketed taken false ts us →
      Unbracketed taken true (opening :: operator .subtract :: number v :: closing :: ts)
        (operator .subtract :: number v :: us)
  | taken (v : Float) (ts : List Token) {us : List Token} : taken = true → TakesLiteral v us →
      Unbracketed taken true (opening :: operator .subtract :: number v :: closing :: ts)
        (operator .subtract :: us)

/-! ## Tokens that a pass passes by -/

/-- Tokens without the mark that do not end in a literal are kept in front. -/
theorem expandBetween_append_left {mark : Token} (f : MathFunction) {front : List Token}
    (hmark : mark ∉ front) (hends : ∀ a ∈ front.getLast?, a.isNumber = false) (ts : List Token) :
    expandBetween mark f (front ++ ts) = front ++ expandBetween mark f ts := by
  have hseam : Seam (NoMark mark) front ts := by
    refine fun a ha _ _ => ⟨fun _ => hends a ha, ?_⟩
    rintro - rfl
    exact hmark (List.mem_of_getLast? ha)
  rw [expandBetween_append mark f hseam, expandBetween_eq_self f hmark]

/-- A mark is none of the tokens that leave a literal to its sign, and it is no literal. -/
theorem not_mem_of_leavesSign {mark : Token} (hleaves : mark.leavesSign = false)
    (hnumber : mark.isNumber = false) {front : List Token}
    (h : ∀ t ∈ front, t.leavesSign = true ∨ t.isNumber = true) : mark ∉ front := by
  intro hmem
  rcases h mark hmem with hmark | hmark
  · cases hleaves.symm.trans hmark
  · cases hnumber.symm.trans hmark

section Bracketed

variable (v : Float) (ts : List Token)

/-- Percent signs are divided behind a bracketed number with a sign. -/
theorem resolvePercent_bracketed :
    resolvePercent (opening :: operator .subtract :: number v :: closing :: ts) =
      opening :: operator .subtract :: number v :: closing :: resolvePercent ts := rfl

/-- Factorials are written out behind a bracketed number with a sign. -/
theorem expandFactorials_bracketed :
    expandFactorials (opening :: operator .subtract :: number v :: closing :: ts) =
      opening :: operator .subtract :: number v :: closing :: expandFactorials ts := rfl

/-- A mark is written out behind a bracketed number with a sign. -/
theorem expandBetween_bracketed {mark : Token} (hleaves : mark.leavesSign = false)
    (hnumber : mark.isNumber = false) (f : MathFunction) :
    expandBetween mark f (opening :: operator .subtract :: number v :: closing :: ts) =
      opening :: operator .subtract :: number v :: closing :: expandBetween mark f ts := by
  have hmark : mark ∉ [opening, operator .subtract, number v, closing] :=
    not_mem_of_leavesSign hleaves hnumber (by simp [leavesSign, isNumber])
  refine expandBetween_append_left f hmark ?_ ts
  rintro _ ⟨⟩
  rfl

end Bracketed

namespace TakesLiteral

variable {v : Float} {ts : List Token}

/-- What comes later does not matter. -/
theorem append (h : TakesLiteral v ts) (us : List Token) : TakesLiteral v (ts ++ us) := by
  cases h with
  | behind ts hleaves hnumber => exact .behind (ts ++ us) hleaves hnumber
  | hundredth ts => exact .hundredth (ts ++ us)
  | one f ts => exact .one f (ts ++ us)
  | two f w ts => exact .two f w (ts ++ us)

/-- Percent signs are resolved behind the literal that is taken. -/
theorem resolvePercent (h : TakesLiteral v ts) : TakesLiteral v (resolvePercent ts) := by
  cases h with
  | @behind t ts hleaves hnumber =>
    by_cases hpercent : t = percent
    · subst hpercent
      exact .hundredth _
    · rw [resolvePercent_cons (by simp) (by simpa [isNumber] using hpercent),
        resolvePercent_cons hpercent (by simp [hnumber])]
      exact .behind _ hleaves hnumber
  | hundredth ts => exact .hundredth (Token.resolvePercent ts)
  | one f ts => exact .one f (Token.resolvePercent ts)
  | two f w ts => exact .two f w (Token.resolvePercent ts)

/-- Product signs are put in behind the literal that is taken. -/
theorem insertProducts (h : TakesLiteral v ts) : TakesLiteral v (insertProducts ts) := by
  cases h with
  | @behind t ts hleaves hnumber =>
    have hstarts : t.startsValue = false := by
      revert hleaves hnumber
      cases t <;> simp [leavesSign, isNumber, startsValue]
    have hproduct : NoProduct (number v) t := by simp [NoProduct, juxtaposed, hstarts]
    obtain ⟨sign, hsign⟩ := exists_insertProducts_cons t ts
    rw [insertProducts_cons (by simpa using hproduct), hsign]
    exact .behind _ hleaves hnumber
  | hundredth ts =>
    have hends : Token.insertProducts (Token.hundredth v ++ ts) =
        [opening, number v, operator .divide, number 100] ++
          Token.insertProducts (closing :: ts) := rfl
    obtain ⟨sign, hsign⟩ := exists_insertProducts_cons closing ts
    rw [hends, hsign]
    exact .hundredth _
  | one f ts =>
    have hends : Token.insertProducts (callOne f v ++ ts) =
        [function f, opening, number v] ++ Token.insertProducts (closing :: ts) := rfl
    obtain ⟨sign, hsign⟩ := exists_insertProducts_cons closing ts
    rw [hends, hsign]
    exact .one f _
  | two f w ts =>
    have hends : Token.insertProducts (callTwo f v w ++ ts) =
        [function f, opening, number v, comma, number w] ++
          Token.insertProducts (closing :: ts) := rfl
    obtain ⟨sign, hsign⟩ := exists_insertProducts_cons closing ts
    rw [hends, hsign]
    exact .two f w _

/-- A factorial mark that takes the literal is written as a call. -/
theorem expandFactorials (h : TakesLiteral v ts) : TakesLiteral v (expandFactorials ts) := by
  cases h with
  | @behind t ts hleaves hnumber =>
    by_cases hmark : t = factorialMark
    · subst hmark
      exact .one .factorial _
    · rw [expandFactorials_cons (by simpa [isNumber] using hmark),
        expandFactorials_cons (by simp [hnumber])]
      exact .behind _ hleaves hnumber
  | hundredth ts => exact .hundredth (Token.expandFactorials ts)
  | one f ts => exact .one f (Token.expandFactorials ts)
  | two f w ts => exact .two f w (Token.expandFactorials ts)

/-- A mark that takes the literal together with the next one is written as a call. -/
theorem expandBetween {mark : Token} (hmark : mark.leavesSign = false)
    (hliteral : mark.isNumber = false) (g : MathFunction) (h : TakesLiteral v ts) :
    TakesLiteral v (expandBetween mark g ts) := by
  cases h with
  | @behind t ts hleaves hnumber =>
    by_cases htaken : ∃ w us, t :: ts = mark :: number w :: us
    · obtain ⟨w, us, heq⟩ := htaken
      obtain ⟨rfl, rfl⟩ := List.cons.inj heq
      rw [Token.expandBetween, if_pos rfl]
      exact .two g w _
    · rw [expandBetween_cons g fun _ w us heq => htaken ⟨w, us, heq⟩,
        expandBetween_cons g (by simp [hnumber])]
      exact .behind _ hleaves hnumber
  | hundredth ts =>
    have hkept : mark ∉ Token.hundredth v :=
      not_mem_of_leavesSign hmark hliteral (by simp [Token.hundredth, leavesSign, isNumber])
    rw [expandBetween_append_left g hkept (by simp [Token.hundredth, isNumber])]
    exact .hundredth _
  | one f ts =>
    have hkept : mark ∉ callOne f v :=
      not_mem_of_leavesSign hmark hliteral (by simp [callOne, leavesSign, isNumber])
    rw [expandBetween_append_left g hkept (by simp [callOne, isNumber])]
    exact .one f _
  | two f w ts =>
    have hkept : mark ∉ callTwo f v w :=
      not_mem_of_leavesSign hmark hliteral (by simp [callTwo, leavesSign, isNumber])
    rw [expandBetween_append_left g hkept (by simp [callTwo, isNumber])]
    exact .two f w _

end TakesLiteral

namespace Unbracketed

variable {taken awaited : Bool} {ts us : List Token}

/-- Where no operand is awaited, both begin with the same token. -/
theorem head?_eq (h : Unbracketed taken false ts us) : ts.head? = us.head? := by
  cases h <;> rfl

/-- Where no operand is awaited, both go on alike. -/
theorem exists_of_cons {t : Token} (h : Unbracketed taken false (t :: ts) us) :
    ∃ vs, us = t :: vs ∧ Unbracketed taken t.awaitsOperand ts vs := by
  cases h with
  | keep _ _ h => exact ⟨_, rfl, h⟩

/-- Where no operand is awaited, both go on alike. -/
theorem exists_of_cons_right {t : Token} (h : Unbracketed taken false ts (t :: us)) :
    ∃ vs, ts = t :: vs ∧ Unbracketed taken t.awaitsOperand vs us := by
  cases h with
  | keep _ _ h => exact ⟨_, rfl, h⟩

/-- What is alike without an awaited operand is alike with one. -/
theorem of_false (h : Unbracketed taken false ts us) : Unbracketed taken awaited ts us := by
  cases h with
  | nil _ htaken => exact .nil awaited htaken
  | keep _ t h => exact .keep awaited t h

/-- The same tokens may stand in front of both. -/
theorem append_left (h : Unbracketed taken false ts us) (front : List Token) :
    Unbracketed taken awaited (front ++ ts) (front ++ us) := by
  induction front generalizing awaited with
  | nil => exact h.of_false
  | cons t front ih => exact .keep awaited t ih

/-- Behind a literal both have the same next token; behind what awaits an operand none matters. -/
theorem head?_eq_of_not_awaits {t : Token} (h : Unbracketed taken t.awaitsOperand ts us)
    (ht : t.awaitsOperand = false) : ts.head? = us.head? := by
  rw [ht] at h
  exact h.head?_eq

/-- If no literal stands before a mark in the first tokens, none does in the second ones. -/
theorem head?_ne_of_isNumber {t mark : Token} (h : Unbracketed taken t.awaitsOperand ts us)
    (hliteral : ¬∃ v rest, t = number v ∧ ts = mark :: rest) :
    (t.isNumber = true → ts.head? ≠ some mark) ∧ (t.isNumber = true → us.head? ≠ some mark) := by
  have hts : t.isNumber = true → ts.head? ≠ some mark := by
    intro ht hhead
    obtain ⟨rest, rfl⟩ := List.head?_eq_some_iff.1 hhead
    cases t with
    | number v => exact hliteral ⟨v, rest, rfl, rfl⟩
    | _ => cases ht
  refine ⟨hts, fun ht => ?_⟩
  rw [← h.head?_eq_of_not_awaits (awaitsOperand_of_isNumber ht)]
  exact hts ht

/-! ## The passes of the preparation -/

/-- Percent signs are resolved alike. -/
theorem resolvePercent {awaited : Bool} {ts us : List Token}
    (h : Unbracketed taken awaited ts us) :
    Unbracketed taken awaited (resolvePercent ts) (resolvePercent us) := by
  -- The pass takes two tokens at a time, so the recursion is on the length and not on the relation.
  cases h with
  | nil _ htaken => exact .nil awaited htaken
  | taken v ts htaken htakes =>
    rw [resolvePercent_bracketed, resolvePercent_cons (by simp) (by simp [isNumber])]
    exact .taken v _ htaken htakes.resolvePercent
  | @literal v ts us hhead h =>
    have hpercent : us.head? ≠ some percent := by
      intro hus
      cases hhead percent hus
    rw [resolvePercent_bracketed, resolvePercent_cons (by simp) (by simp [isNumber]),
      resolvePercent_cons (by simp) fun _ => hpercent]
    exact .literal v hhead.resolvePercent h.resolvePercent
  | @keep _ t ts us h =>
    by_cases hliteral : ∃ v rest, t = number v ∧ ts = percent :: rest
    · obtain ⟨v, rest, rfl, rfl⟩ := hliteral
      obtain ⟨vs, rfl, hrest⟩ := h.exists_of_cons
      exact hrest.resolvePercent.append_left (hundredth v)
    by_cases htwice : ∃ rest, t = percent ∧ ts = percent :: rest
    · obtain ⟨rest, rfl, rfl⟩ := htwice
      obtain ⟨vs, rfl, hrest⟩ := h.exists_of_cons
      exact hrest.resolvePercent.append_left (operator .divide :: hundredth 100)
    by_cases hpercent : t = percent
    · subst hpercent
      have hts : ts.head? ≠ some percent := by
        intro hhead
        obtain ⟨rest, rfl⟩ := List.head?_eq_some_iff.1 hhead
        exact htwice ⟨rest, rfl, rfl⟩
      have hus : us.head? ≠ some percent := by rwa [← h.head?_eq]
      rw [resolvePercent_percent hts, resolvePercent_percent hus]
      exact h.resolvePercent.append_left [operator .divide, number 100]
    · obtain ⟨hts, hus⟩ := h.head?_ne_of_isNumber hliteral
      rw [resolvePercent_cons hpercent hts, resolvePercent_cons hpercent hus]
      exact .keep awaited t h.resolvePercent
termination_by ts.length

/-- The brackets that are left out come in pairs. -/
theorem exists_count (h : Unbracketed false awaited ts us) :
    ∃ pairs, ts.count opening = us.count opening + pairs ∧
      ts.count closing = us.count closing + pairs := by
  induction h with
  | nil => exact ⟨0, rfl, rfl⟩
  | taken v ts hset => cases hset
  | keep _ t _ ih =>
    obtain ⟨pairs, hopening, hclosing⟩ := ih
    refine ⟨pairs, ?_, ?_⟩
    · rw [List.count_cons, List.count_cons, hopening]
      omega
    · rw [List.count_cons, List.count_cons, hclosing]
      omega
  | literal v _ _ ih =>
    obtain ⟨pairs, hopening, hclosing⟩ := ih
    refine ⟨pairs + 1, ?_, ?_⟩
    · simp [hopening]
      omega
    · simp [hclosing]
      omega

/-- Closing brackets at the end are kept. Behind a literal that is taken their number is free. -/
theorem append_closings (h : Unbracketed taken awaited ts us) {m n : Nat}
    (hnumber : taken = false → m = n) :
    Unbracketed taken awaited (ts ++ List.replicate m closing)
      (us ++ List.replicate n closing) := by
  induction h with
  | nil awaited htaken =>
    rw [hnumber htaken, List.nil_append, ← List.append_nil (List.replicate n closing)]
    exact (Unbracketed.nil false htaken).append_left _
  | keep awaited t _ ih => exact .keep awaited t ih
  | taken v ts htaken htakes => exact .taken v _ htaken (htakes.append _)
  | @literal v ts us hhead _ ih =>
    refine .literal v ?_ ih
    cases us with
    | nil =>
      intro t ht
      cases n with
      | zero => cases ht
      | succ n =>
        cases ht
        rfl
    | cons u us => exact hhead

/-- The same closing brackets are missing, unless a literal is taken. -/
theorem closeBrackets (h : Unbracketed taken awaited ts us) :
    Unbracketed taken awaited (closeBrackets ts) (closeBrackets us) := by
  refine h.append_closings fun htaken => ?_
  obtain ⟨pairs, hopening, hclosing⟩ := (htaken ▸ h).exists_count
  rw [missingClosings, missingClosings, hopening, hclosing]
  omega

/-- The product sign that is put between a token and what comes next. -/
def productSign (a : Token) (next : Option Token) : List Token :=
  if next.any (juxtaposed a) then [operator .multiply] else []

/-- The sign that the next token asks for is put behind the first one. -/
theorem insertProducts_cons_eq (a : Token) (ts : List Token) :
    Token.insertProducts (a :: ts) = a :: (productSign a ts.head? ++ Token.insertProducts ts) := by
  cases ts with
  | nil => rfl
  | cons b ts =>
    rw [Token.insertProducts, productSign, List.head?_cons, Option.any_some]
    split <;> rfl

/-- No product sign is put behind what awaits an operand. -/
theorem productSign_of_awaitsOperand {a : Token} (h : a.awaitsOperand = true)
    (next : Option Token) : productSign a next = [] := by
  have hends : a.endsValue = false := by
    cases a <;> first | rfl | cases h
  rw [productSign]
  cases next <;> simp [juxtaposed, hends]

/-- Product signs are put in alike. -/
theorem insertProducts (h : Unbracketed taken awaited ts us) :
    Unbracketed taken awaited (insertProducts ts) (insertProducts us) := by
  induction h with
  | nil awaited htaken => exact .nil awaited htaken
  | @taken v ts us htaken htakes =>
    rw [insertProducts_cons_eq opening, insertProducts_cons_eq (operator .subtract),
      insertProducts_cons_eq (number v), insertProducts_cons_eq closing,
      insertProducts_cons_eq (operator .subtract), productSign_of_awaitsOperand rfl us.head?]
    exact .taken v _ htaken htakes.insertProducts
  | @keep awaited t ts us h ih =>
    rw [insertProducts_cons_eq, insertProducts_cons_eq]
    cases hawaits : t.awaitsOperand with
    | true =>
      rw [productSign_of_awaitsOperand hawaits, productSign_of_awaitsOperand hawaits]
      exact .keep awaited t ih
    | false =>
      rw [hawaits] at h ih
      rw [h.head?_eq]
      exact ih.append_left (t :: productSign t us.head?)
  | @literal v ts us hhead h ih =>
    -- Behind the literal and behind its bracket the same sign is put in, for no literal follows.
    have hsign : productSign closing us.head? = productSign (number v) us.head? := by
      cases us with
      | nil => rfl
      | cons u us =>
        have hnumber := (ne_of_leavesSign (hhead u rfl)).1
        simp [productSign, juxtaposed, endsValue, hnumber]
    rw [insertProducts_cons_eq opening, insertProducts_cons_eq (operator .subtract),
      insertProducts_cons_eq (number v), insertProducts_cons_eq closing,
      insertProducts_cons_eq (operator .subtract), insertProducts_cons_eq (number v), h.head?_eq,
      hsign]
    have hnext : LeavesSign (productSign (number v) us.head? ++ Token.insertProducts us) := by
      rw [productSign]
      split
      · rintro t ⟨⟩
        rfl
      · exact hhead.insertProducts
    exact .literal v hnext (ih.append_left _)

/-- Factorial marks are written as calls alike. -/
theorem expandFactorials {awaited : Bool} {ts us : List Token}
    (h : Unbracketed taken awaited ts us) :
    Unbracketed taken awaited (expandFactorials ts) (expandFactorials us) := by
  cases h with
  | nil _ htaken => exact .nil awaited htaken
  | taken v ts htaken htakes =>
    rw [expandFactorials_bracketed, expandFactorials_cons (by simp [isNumber])]
    exact .taken v _ htaken htakes.expandFactorials
  | @literal v ts us hhead h =>
    have hmark : us.head? ≠ some factorialMark := by
      intro hus
      cases hhead factorialMark hus
    rw [expandFactorials_bracketed, expandFactorials_cons (by simp [isNumber]),
      expandFactorials_cons fun _ => hmark]
    exact .literal v hhead.expandFactorials h.expandFactorials
  | @keep _ t ts us h =>
    by_cases hliteral : ∃ v rest, t = number v ∧ ts = factorialMark :: rest
    · obtain ⟨v, rest, rfl, rfl⟩ := hliteral
      obtain ⟨vs, rfl, hrest⟩ := h.exists_of_cons
      exact hrest.expandFactorials.append_left (callOne .factorial v)
    · obtain ⟨hts, hus⟩ := h.head?_ne_of_isNumber hliteral
      rw [expandFactorials_cons hts, expandFactorials_cons hus]
      exact .keep awaited t h.expandFactorials
termination_by ts.length

/-- Marks between literals are written as calls alike. -/
theorem expandBetween {mark : Token} (hleaves : mark.leavesSign = false)
    (hnumber : mark.isNumber = false) (hawaits : mark.awaitsOperand = false) (f : MathFunction)
    {awaited : Bool} {ts us : List Token} (h : Unbracketed taken awaited ts us) :
    Unbracketed taken awaited (expandBetween mark f ts) (expandBetween mark f us) := by
  cases h with
  | nil _ htaken => exact .nil awaited htaken
  | taken v ts htaken htakes =>
    rw [expandBetween_bracketed v ts hleaves hnumber, expandBetween_cons f (by simp [isNumber])]
    exact .taken v _ htaken (htakes.expandBetween hleaves hnumber f)
  | @literal v ts us hhead h =>
    have hmark : ∀ w vs, us ≠ mark :: number w :: vs := by
      rintro w vs rfl
      have := hhead mark rfl
      simp [hleaves] at this
    rw [expandBetween_bracketed v ts hleaves hnumber, expandBetween_cons f (by simp [isNumber]),
      expandBetween_cons f fun _ => hmark]
    exact .literal v (hhead.expandBetween mark f) (h.expandBetween hleaves hnumber hawaits f)
  | @keep _ t ts us h =>
    by_cases hliteral : ∃ v w rest, t = number v ∧ ts = mark :: number w :: rest
    · obtain ⟨v, w, rest, rfl, rfl⟩ := hliteral
      obtain ⟨vs, rfl, hvs⟩ := h.exists_of_cons
      rw [hawaits] at hvs
      obtain ⟨ws, rfl, hrest⟩ := hvs.exists_of_cons
      rw [Token.expandBetween, if_pos rfl, Token.expandBetween, if_pos rfl]
      exact (hrest.expandBetween hleaves hnumber hawaits f).append_left (callTwo f v w)
    · have hts : t.isNumber = true → ∀ w vs, ts ≠ mark :: number w :: vs := by
        rintro ht w vs rfl
        cases t with
        | number v => exact hliteral ⟨v, w, vs, rfl, rfl⟩
        | _ => cases ht
      have hus : t.isNumber = true → ∀ w vs, us ≠ mark :: number w :: vs := by
        rintro ht w vs rfl
        have h := h
        rw [awaitsOperand_of_isNumber ht] at h
        obtain ⟨rest, rfl, hrest⟩ := h.exists_of_cons_right
        rw [hawaits] at hrest
        obtain ⟨rest', rfl, -⟩ := hrest.exists_of_cons_right
        exact hts ht w rest' rfl
      rw [expandBetween_cons f hts, expandBetween_cons f hus]
      exact .keep awaited t (h.expandBetween hleaves hnumber hawaits f)
termination_by ts.length

/-- All marks are written as calls alike. -/
theorem expandMarks (h : Unbracketed taken awaited ts us) :
    Unbracketed taken awaited (expandMarks ts) (expandMarks us) :=
  (h.expandFactorials.expandBetween rfl rfl rfl .permutations).expandBetween rfl rfl rfl
    .combinations

/-- The tokens of the plain language are alike. -/
theorem toPlain (h : Unbracketed taken awaited ts us) :
    Unbracketed taken awaited (toPlain ts) (toPlain us) :=
  h.resolvePercent.closeBrackets.insertProducts.expandMarks

end Unbracketed

/-! ## Angles -/

/-- The token is no function of an angle. -/
def NoAngle (t : Token) : Prop := ∀ f, t = function f → f.takesAngle = false

/-- Nothing that is put in is a function of an angle. -/
theorem usual_noAngle : Usual NoAngle where
  opening _ h := by cases h
  closing _ h := by cases h
  comma _ h := by cases h
  operator _ _ h := by cases h
  hundred _ h := by cases h
  counting _ hf _ h := by
    cases h
    exact hf

/-- Where no function takes an angle, nothing is converted. -/
theorem convertWithin_eq_self {within : List Bool} {ts : List Token} (h : ∀ t ∈ ts, t.NoAngle)
    (hwithin : ∀ b ∈ within, b = false) : convertWithin within ts = ts := by
  fun_induction convertWithin within ts with
  | case1 within f ts hf ih =>
    have hangle := h (function f) (by simp) f rfl
    simp [hf] at hangle
  | case2 within f ts _ ih => simp_all
  | case3 within ts ih => simp_all
  | case4 within ts ih => simp_all
  | case5 within ts _ ih =>
    have htail : ∀ b ∈ within.tail, b = false := fun b hb => hwithin b (List.mem_of_mem_tail hb)
    simp_all
  | case6 within t ts _ _ _ _ ih => simp_all
  | case7 => rfl

/-- Without functions of angles the prepared tokens are those of the plain language. -/
theorem prepare_eq_toPlain {ts : List Token} (h : ∀ t ∈ ts, t.NoAngle) (mode : AngleMode) :
    prepare mode ts = toPlain ts := by
  cases mode with
  | radians => rfl
  | degrees => exact convertWithin_eq_self (usual_noAngle.toPlain h) (by simp)

end Token

end SciCalc
