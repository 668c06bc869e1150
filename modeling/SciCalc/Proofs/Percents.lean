import SciCalc.Proofs.Enclosing
import SciCalc.Proofs.Preparing

/-!
# A percent sign behind an operand

A percent sign behind a literal divides that literal, in brackets of its own. Behind a constant, a
bracket or a call it is written out as `/ 100` without brackets, and the hundred stands open to what
follows. Most of what may follow takes the whole quotient, as it would behind brackets. A further
percent sign, a power sign, a mark or another literal takes the hundred alone, and then the two ways
of writing are never read as the same expression.
-/

set_option autoImplicit false

namespace SciCalc

open Token (Matched enclosed writeOut toPlain resolvePercent insertProducts expandMarks
  missingClosings closeBrackets)

namespace Token

/-- The tokens of an operand that is no literal. -/
inductive Operand : List Token → Prop where
  | pi : Operand [pi]
  | answer : Operand [answer]
  | enclosed (callee : Option MathFunction) {ts : List Token} : Matched ts →
      Operand (enclosed callee ts)

/--
Whether what follows takes a literal before it as its own: a percent sign, a power sign, a mark, or
a literal that no percent sign takes itself.
-/
def takesLiteral : List Token → Bool
  | number _ :: percent :: _ => false
  | number _ :: _ => true
  | percent :: _ => true
  | operator .raise :: _ => true
  | factorialMark :: _ => true
  | permutationMark :: _ => true
  | combinationMark :: _ => true
  | _ => false

/-- A quotient by a hundred in brackets. -/
def overHundred (ts : List Token) : List Token :=
  opening :: (ts ++ [operator .divide, number 100, closing])

/-! ## The operand -/

/-- An operand that is no literal ends like one. -/
theorem Operand.getLast? {ts : List Token} (h : Operand ts) :
    ∀ a ∈ ts.getLast?, a.isNumber = false ∧ a ≠ percent := by
  cases h with
  | pi => simp [isNumber]
  | answer => simp [isNumber]
  | enclosed callee _ =>
    intro a ha
    have hlast : a = closing := by
      rw [Token.enclosed, ← List.cons_append, ← List.append_assoc, List.getLast?_append] at ha
      simpa using ha.symm
    subst hlast
    exact ⟨rfl, by simp⟩

/-- An operand that is no literal is written out to one. -/
theorem Operand.writeOut {ts : List Token} (h : Operand ts) : Operand (writeOut ts) := by
  cases h with
  | pi => exact .pi
  | answer => exact .answer
  | @enclosed callee us hus =>
    have hend : Token.writeOut (us ++ [closing]) = Token.writeOut us ++ [closing] :=
      writeOut_append_cons (.inl rfl) us []
    have hsame : Token.writeOut (Token.enclosed callee us) =
        Token.enclosed callee (Token.writeOut us) := by
      rw [Token.enclosed, writeOut_silent_append, writeOut_opening, hend, Token.enclosed]
      intro t ht
      cases callee with
      | none => simp at ht
      | some f => exact .inr (.inr ⟨f, by simpa using ht⟩)
    rw [hsame]
    exact .enclosed callee (by rw [Matched, depthAfter_writeOut, hus])

/-- An operand that is no literal matches. -/
theorem Operand.matched {ts : List Token} (h : Operand ts) : Matched ts := by
  cases h with
  | pi => rfl
  | answer => rfl
  | enclosed callee hus => exact hus.enclosed callee

end Token

/-- An operand that is no literal is read as one, if it is read. -/
theorem Postfix.exists_filled_of_readAll_operand {ts : List Token} (h : Token.Operand ts)
    {s : State} (hs : readAll {} ts = .ok s) : ∃ output, s = .filled output [] := by
  cases h with
  | pi =>
    cases hs
    exact ⟨[.pi], rfl⟩
  | answer =>
    cases hs
    exact ⟨[.answer], rfl⟩
  | @enclosed callee us hus =>
    have hread : readAll (.ready [] []) (Token.enclosed callee us) = .ok s := hs
    exact exists_filled_of_readAll_enclosed hus hread

namespace Token

/-! ## Writing out -/

/-- A percent sign behind an operand is a division by a hundred. -/
theorem resolvePercent_operand_percent {ts us : List Token} (hts : Operand ts)
    (hus : us.head? ≠ some percent) :
    resolvePercent (ts ++ percent :: us) =
      resolvePercent ts ++ operator .divide :: number 100 :: resolvePercent us := by
  rw [resolvePercent_append (seam_cons_right.2 fun a ha _ => hts.getLast? a ha),
    resolvePercent_percent hus]

/-- A division by a hundred is resolved apart from what follows. -/
theorem resolvePercent_divide (ts : List Token) {us : List Token} (hus : us.head? ≠ some percent) :
    resolvePercent (ts ++ operator .divide :: number 100 :: us) =
      resolvePercent ts ++ operator .divide :: number 100 :: resolvePercent us := by
  rw [resolvePercent_append (seam_cons_right.2 fun a _ h => by simp at h),
    resolvePercent_cons (by simp) (by simp [isNumber]),
    resolvePercent_cons (by simp) fun _ => hus]

/-- A bracketed quotient is resolved apart from what follows. -/
theorem resolvePercent_overHundred (ts us : List Token) :
    resolvePercent (overHundred ts ++ us) =
      overHundred (resolvePercent ts) ++ resolvePercent us := by
  have hsplit : overHundred ts ++ us =
      opening :: (ts ++ operator .divide :: number 100 :: closing :: us) := by simp [overHundred]
  rw [hsplit, resolvePercent_cons (by simp) (by simp [isNumber]),
    resolvePercent_divide ts (by simp), resolvePercent_cons (by simp) (by simp [isNumber])]
  simp [overHundred]

/-- Brackets around the quotient change nothing in what is missing. -/
theorem missingClosings_overHundred (ts us : List Token) :
    missingClosings (overHundred ts ++ us) =
      missingClosings (ts ++ operator .divide :: number 100 :: us) := by
  simp only [missingClosings, overHundred, List.cons_append, List.append_assoc, List.nil_append,
    List.count_append, List.count_cons]
  simp
  omega

/-- What is in front of a division is written out apart from it. -/
theorem expandMarks_insertProducts_divide (ts us : List Token) :
    expandMarks (insertProducts (ts ++ operator .divide :: us)) =
      expandMarks (insertProducts ts) ++ operator .divide :: expandMarks (insertProducts us) := by
  rw [insertProducts_append (seam_cons_right.2 fun a _ => by
      simp [NoProduct, juxtaposed, startsValue]),
    insertProducts_cons (fun b _ => by simp [NoProduct, juxtaposed, endsValue]),
    expandMarks_append_cons (inert_operator .divide)]

/-- A bracketed quotient is written out up to its closing bracket. -/
theorem expandMarks_insertProducts_overHundred (ts us : List Token) :
    expandMarks (insertProducts (overHundred ts ++ us)) =
      opening :: (expandMarks (insertProducts ts) ++ operator .divide :: number 100 ::
        expandMarks (insertProducts (closing :: us))) := by
  have hsplit : overHundred ts ++ us =
      opening :: (ts ++ operator .divide :: number 100 :: closing :: us) := by simp [overHundred]
  obtain ⟨sign, hsign⟩ := exists_insertProducts_cons closing us
  have hclosing (vs : List Token) :
      expandMarks (number 100 :: closing :: vs) = number 100 :: closing :: expandMarks vs :=
    expandMarks_append_cons inert_closing [number 100] vs
  rw [hsplit, insertProducts_cons (fun b _ => by simp [NoProduct, juxtaposed, endsValue]),
    expandMarks_cons rfl, expandMarks_insertProducts_divide,
    insertProducts_cons (a := number 100) (fun b hb => by
      simp only [List.head?_cons, Option.mem_def, Option.some.injEq] at hb
      simp [NoProduct, juxtaposed, ← hb, startsValue]), hsign, hclosing, expandMarks_cons rfl]

/-- What follows is written out alike behind the hundred and behind the closing bracket. -/
theorem exists_expandMarks_insertProducts {us : List Token} (hus : ∀ b ∈ us.head?, Inert b) :
    ∃ vs, (vs.head? = us.head? ∨
        vs.head? = some (operator .multiply) ∧ ∃ b ∈ us.head?, b.startsValue = true) ∧
      expandMarks (insertProducts (number 100 :: us)) = number 100 :: vs ∧
      expandMarks (insertProducts (closing :: us)) = closing :: vs := by
  cases us with
  | nil => exact ⟨[], .inl rfl, rfl, rfl⟩
  | cons b us =>
    have hb := hus b rfl
    have hsame (a : Token) (ha : a.endsValue = true) : juxtaposed a b = b.startsValue := by
      simp [juxtaposed, ha, hb.1]
    have hnumber (c : Token) (hc : Inert c) (vs : List Token) :
        expandMarks (number 100 :: c :: vs) = number 100 :: c :: expandMarks vs :=
      expandMarks_append_cons hc [number 100] vs
    obtain ⟨sign, hsign⟩ := exists_insertProducts_cons b us
    rw [insertProducts, insertProducts, hsame _ rfl, hsame _ rfl]
    cases hstarts : b.startsValue with
    | true =>
      refine ⟨operator .multiply :: expandMarks (insertProducts (b :: us)),
        .inr ⟨rfl, b, rfl, hstarts⟩, ?_, ?_⟩
      · rw [if_pos rfl, hnumber _ (inert_operator .multiply)]
      · rw [if_pos rfl, expandMarks_cons rfl, expandMarks_cons rfl]
    | false =>
      refine ⟨expandMarks (insertProducts (b :: us)), .inl ?_, ?_, ?_⟩
      · rw [hsign, expandMarks_cons hb.1]
        rfl
      · rw [if_neg (by simp), hsign, hnumber b hb, expandMarks_cons hb.1]
      · rw [if_neg (by simp), expandMarks_cons rfl]

/-- A mark behind the closing bracket stays there. -/
theorem exists_expandMarks_mark {t : Token} (hnumber : t.isNumber = false)
    (hstarts : t.startsValue = false) (us : List Token) :
    ∃ vs, expandMarks (insertProducts (closing :: t :: us)) = closing :: t :: vs := by
  obtain ⟨sign, hsign⟩ := exists_insertProducts_cons t us
  refine ⟨expandMarks (sign ++ insertProducts us), ?_⟩
  rw [insertProducts, if_neg (by simp [juxtaposed, hstarts]), hsign, expandMarks_cons rfl,
    expandMarks_cons hnumber]

/-- A literal or the name of a function. -/
def StartsCall (t : Token) : Prop := (∃ v, t = number v) ∨ ∃ f, t = function f

/-- A literal or a function name in front is written out to one. -/
theorem exists_expandFactorials_cons {b : Token} (hb : StartsCall b) (us : List Token) :
    ∃ b' vs, StartsCall b' ∧ expandFactorials (b :: us) = b' :: vs := by
  rw [expandFactorials.eq_def]
  split
  · exact ⟨_, _, .inr ⟨_, rfl⟩, rfl⟩
  · next heq =>
    cases heq
    exact ⟨_, _, hb, rfl⟩
  · next heq => cases heq

/-- A literal or a function name in front is written out to one. -/
theorem exists_expandBetween_cons (mark : Token) (f : MathFunction) {b : Token} (hb : StartsCall b)
    (us : List Token) : ∃ b' vs, StartsCall b' ∧ expandBetween mark f (b :: us) = b' :: vs := by
  rw [expandBetween.eq_def]
  split
  · next heq =>
    cases heq
    split
    · exact ⟨_, _, .inr ⟨_, rfl⟩, rfl⟩
    · exact ⟨_, _, hb, rfl⟩
  · next heq =>
    cases heq
    exact ⟨_, _, hb, rfl⟩
  · next heq => cases heq

/-- A literal behind the hundred is written out to a literal or a call, with no sign before it. -/
theorem exists_expandMarks_number (w : Float) (us : List Token) :
    ∃ b vs, StartsCall b ∧
      expandMarks (insertProducts (number 100 :: number w :: us)) = number 100 :: b :: vs := by
  obtain ⟨sign, hsign⟩ := exists_insertProducts_cons (number w) us
  obtain ⟨b₁, vs₁, hb₁, hfirst⟩ :=
    exists_expandFactorials_cons (.inl ⟨w, rfl⟩) (sign ++ insertProducts us)
  obtain ⟨b₂, vs₂, hb₂, hsecond⟩ :=
    exists_expandBetween_cons permutationMark .permutations hb₁ vs₁
  obtain ⟨b₃, vs₃, hb₃, hthird⟩ := exists_expandBetween_cons combinationMark .combinations hb₂ vs₂
  have hbetween (mark : Token) (f : MathFunction) {b : Token} (hb : b ≠ mark) (vs : List Token) :
      expandBetween mark f (number 100 :: b :: vs) = number 100 :: expandBetween mark f (b :: vs) :=
    expandBetween_cons f fun _ v ws heq => hb (List.cons.inj heq).1
  have hmark {b : Token} (hb : StartsCall b) : b ≠ permutationMark ∧ b ≠ combinationMark := by
    rcases hb with ⟨v, rfl⟩ | ⟨g, rfl⟩ <;> simp
  refine ⟨b₃, vs₃, hb₃, ?_⟩
  rw [insertProducts_cons (fun b hb => by
      simp only [List.head?_cons, Option.mem_def, Option.some.injEq] at hb
      simp [NoProduct, juxtaposed, ← hb, isNumber]), hsign]
  simp only [expandMarks]
  rw [expandFactorials_cons (by simp), hfirst, hbetween _ _ (hmark hb₁).1, hsecond,
    hbetween _ _ (hmark hb₂).2, hthird]

/-- Behind a bracketed quotient what follows is written out behind its closing bracket. -/
theorem exists_toPlain_overHundred (ts us : List Token) :
    ∃ vs, toPlain (overHundred ts ++ us) = overHundred (writeOut ts) ++ vs := by
  obtain ⟨sign, hsign⟩ := exists_insertProducts_cons closing
    (resolvePercent us ++ List.replicate
      (missingClosings (overHundred (resolvePercent ts) ++ resolvePercent us)) closing)
  rw [toPlain, resolvePercent_overHundred, closeBrackets, List.append_assoc,
    expandMarks_insertProducts_overHundred, hsign, expandMarks_cons rfl]
  exact ⟨_, by simp [overHundred, writeOut]; rfl⟩

/-- A further percent sign brackets the hundred of the first one. -/
theorem exists_toPlain_percent_percent {ts : List Token} (hts : Operand ts) (us : List Token) :
    ∃ vs, toPlain (ts ++ percent :: percent :: us) =
      writeOut ts ++ operator .divide :: opening :: number 100 :: operator .divide :: vs := by
  have hresolve : resolvePercent (ts ++ percent :: percent :: us) =
      resolvePercent ts ++ operator .divide :: (overHundred [number 100] ++ resolvePercent us) := by
    rw [resolvePercent_append (seam_cons_right.2 fun a ha _ => hts.getLast? a ha)]
    rfl
  have hhundred : expandMarks (insertProducts [number 100]) = [number 100] := rfl
  rw [toPlain, hresolve, closeBrackets, List.append_assoc, List.cons_append,
    expandMarks_insertProducts_divide, List.append_assoc, expandMarks_insertProducts_overHundred,
    hhundred]
  exact ⟨_, rfl⟩

/-! ## What follows -/

/-- A token that takes a literal before it as its own. -/
def Takes (t : Token) : Prop :=
  (∃ v, t = number v) ∨ t = operator .raise ∨
    t = factorialMark ∨ t = permutationMark ∨ t = combinationMark

/-- Whether what follows takes the hundred is seen once its own percent signs are resolved. -/
theorem takesLiteral_iff {ts : List Token} (h : ts.head? ≠ some percent) :
    takesLiteral ts = true ↔ ∃ b ∈ (resolvePercent ts).head?, Takes b := by
  cases ts with
  | nil => simp [takesLiteral, resolvePercent]
  | cons t ts =>
    have ht : t ≠ percent := by simpa using h
    by_cases hnumber : ∃ v us, t = number v ∧ ts = percent :: us
    · obtain ⟨v, us, rfl, rfl⟩ := hnumber
      simp [takesLiteral, resolvePercent, hundredth, Takes]
    · have hstays : resolvePercent (t :: ts) = t :: resolvePercent ts := by
        refine resolvePercent_cons ht fun hisNumber hhead => ?_
        obtain ⟨us, rfl⟩ := List.head?_eq_some_iff.1 hhead
        cases t with
        | number v => exact hnumber ⟨v, us, rfl, rfl⟩
        | _ => cases hisNumber
      rw [hstays]
      cases t with
      | number v =>
        cases ts with
        | nil => simp [takesLiteral, Takes]
        | cons b us =>
          have hb : b ≠ percent := fun hb => hnumber ⟨v, us, rfl, by rw [hb]⟩
          cases b <;> simp_all [takesLiteral, Takes]
      | operator op => cases op <;> simp [takesLiteral, Takes]
      | percent => exact absurd rfl ht
      | _ => simp [takesLiteral, Takes]

/-- What does not take the hundred is inert and no power sign. -/
theorem inert_of_not_takes {t : Token} (h : ¬Takes t) : Inert t ∧ t ≠ operator .raise := by
  simp only [Takes, not_or, not_exists] at h
  refine ⟨⟨?_, h.2.2⟩, h.2.1⟩
  cases t with
  | number v => exact absurd rfl (h.1 v)
  | _ => rfl

/-- The tokens of the two ways of writing, up to what follows the hundred. -/
theorem exists_toPlain_operand {ts us : List Token} (hts : Operand ts)
    (hus : us.head? ≠ some percent) :
    ∃ n, toPlain (ts ++ percent :: us) = writeOut ts ++ operator .divide ::
        expandMarks (insertProducts
          (number 100 :: (resolvePercent us ++ List.replicate n closing))) ∧
      toPlain (overHundred ts ++ us) = opening :: (writeOut ts ++ operator .divide :: number 100 ::
        expandMarks (insertProducts
          (closing :: (resolvePercent us ++ List.replicate n closing)))) := by
  refine ⟨missingClosings
    (resolvePercent ts ++ operator .divide :: number 100 :: resolvePercent us), ?_, ?_⟩
  · rw [toPlain, resolvePercent_operand_percent hts hus, closeBrackets, List.append_assoc,
      List.cons_append, List.cons_append, expandMarks_insertProducts_divide, writeOut]
  · rw [toPlain, resolvePercent_overHundred, closeBrackets, missingClosings_overHundred,
      List.append_assoc, expandMarks_insertProducts_overHundred, writeOut]

end Token

namespace Postfix

open Token (overHundred)

/-! ## Reading -/

/--
Behind the hundred the division still waits, and behind the closing bracket it is written. Unless a
power sign comes, the next token makes up for that, or it is a fault either way.
-/
theorem finish_hundred_eq (output : List Token) {ts : List Token}
    (hts : ts.head? ≠ some (.operator .raise)) :
    (readAll (.filled (.number 100 :: output) [.operator .divide]) ts).bind State.finish =
      (readAll (.filled (.operator .divide :: .number 100 :: output) []) ts).bind State.finish := by
  cases ts with
  | nil =>
    have hwaiting := @State.finish_filled (.number 100 :: output) [.operator .divide]
      (by simp [Pending.isBracket])
    have hwritten := @State.finish_filled (.operator .divide :: .number 100 :: output) []
      (by simp)
    exact hwaiting.trans hwritten.symm
  | cons t ts =>
    have hstep : (State.filled (.number 100 :: output) [.operator .divide]).step t =
        (State.filled (.operator .divide :: .number 100 :: output) []).step t := by
      cases t with
      | operator op =>
        cases op with
        | raise => simp at hts
        | _ => rfl
      | _ => rfl
    rw [readAll_cons, readAll_cons, hstep]

/--
An operand is read alone and as a bracketed quotient up to the same faults, or else it is left as an
operand in the one case and divided by a hundred in the other.
-/
theorem readAll_operand {ts : List Token} (hts : Token.Operand ts) :
    (∃ fault, ∀ us, readAll {} (ts ++ us) = .error fault ∧
      readAll {} (overHundred ts ++ us) = .error fault) ∨
      ∃ output, ∀ us, readAll {} (ts ++ us) = readAll (.filled output []) us ∧
        readAll {} (overHundred ts ++ us) =
          readAll (.filled (.operator .divide :: .number 100 :: output) []) us := by
  have hsplit (us : List Token) : overHundred ts ++ us =
      (.opening :: ts) ++ .operator .divide :: .number 100 :: .closing :: us := by
    simp [overHundred]
  have hinside : readAll {} (.opening :: ts) =
      (readAll {} ts).map (State.onto [] [.bracket none 0]) :=
    readAll_ready_bracket [] [] (by simp [hts.matched.depthAfter_eq])
  rcases hread : readAll {} ts with fault | s
  · refine .inl ⟨fault, fun us => ⟨?_, ?_⟩⟩
    · rw [readAll_append, hread]
      rfl
    · rw [hsplit, readAll_append, hinside, hread]
      rfl
  · obtain ⟨output, rfl⟩ := exists_filled_of_readAll_operand hts hread
    refine .inr ⟨output, fun us => ⟨readAll_append_of_ok hread us, ?_⟩⟩
    have hopen : readAll {} (.opening :: ts) = .ok (.filled output [.bracket none 0]) := by
      rw [hinside, hread, Except.map, onto_filled, List.append_nil, List.nil_append]
    have hclose := @State.step_filled_closing_bracket (.number 100 :: output) [.operator .divide]
      (by simp [Pending.isBracket]) 0 []
    rw [hsplit, readAll_append_of_ok hopen]
    exact readAll_cons_of_ok hclose us

/-- The listing of a run starts with what is written before the run. -/
theorem exists_listing_of_finish {s : State} {ts listing : List Token}
    (h : (readAll s ts).bind State.finish = .ok listing) :
    ∃ rest, listing = s.output.reverse ++ rest := by
  obtain ⟨output, ops, hread, -, rfl⟩ := finish_readAll_eq_ok_iff.1 h
  obtain ⟨written, houtput⟩ := output_of_readAll hread
  refine ⟨written.reverse ++ ops.map Pending.token, ?_⟩
  rw [show output = written ++ s.output from houtput]
  simp [released]

/-- Before an operand the listing of a run goes on with a leaf. -/
theorem exists_listing_of_finish_ready {output ts listing : List Token} {pending : List Pending}
    (h : (readAll (.ready output pending) ts).bind State.finish = .ok listing) :
    ∃ leaf rest, (∀ op, leaf ≠ .operator op) ∧ listing = output.reverse ++ leaf :: rest := by
  obtain ⟨output', ops, hread, -, rfl⟩ := finish_readAll_eq_ok_iff.1 h
  obtain ⟨leaf, written, hleaf, houtput⟩ := leaf_of_readAll hread rfl rfl
  refine ⟨leaf, written.reverse ++ ops.map Pending.token, fun op => ?_, ?_⟩
  · rcases hleaf with ⟨v, rfl⟩ | rfl | rfl <;> simp
  · rw [show output' = written ++ leaf :: output from houtput]
    simp [released]

/-- A hundred that another operand follows is listed apart from one that the division follows. -/
theorem finish_hundred_ne (output : List Token) (pending : List Pending)
    (ts us listing : List Token) :
    ¬((readAll (.ready (.number 100 :: output) pending) ts).bind State.finish = .ok listing ∧
        (readAll (.filled (.operator .divide :: .number 100 :: output) []) us).bind State.finish =
          .ok listing) := by
  rintro ⟨hhundred, hquotient⟩
  obtain ⟨leaf, rest, hleaf, hlisting⟩ := exists_listing_of_finish_ready hhundred
  obtain ⟨rest', hlisting'⟩ := exists_listing_of_finish hquotient
  rw [hlisting] at hlisting'
  simp only [State.filled, List.reverse_cons, List.append_assoc, List.singleton_append] at hlisting'
  have hnext := (List.cons.inj (List.cons.inj (List.append_cancel_left hlisting')).2).1
  exact hleaf .divide hnext

/-- A literal or a call directly behind an operand is a fault. -/
theorem readAll_filled_startsCall {t : Token} (ht : Token.StartsCall t) (output : List Token)
    (pending : List Pending) (ts : List Token) :
    readAll (.filled output pending) (t :: ts) = .error (.operatorMissing t) := by
  rcases ht with ⟨v, rfl⟩ | ⟨f, rfl⟩ <;> rfl

section

variable {ts : List Token} (hts : Token.Operand ts)

include hts

/-- Before anything but a power sign the brackets around the quotient make no difference. -/
theorem ofInfix_overHundred_eq {us : List Token} (hus : us.head? ≠ some (.operator .raise)) :
    ofInfix (ts ++ .operator .divide :: .number 100 :: us) = ofInfix (overHundred ts ++ us) := by
  rw [ofInfix_eq_bind (by simp), ofInfix_eq_bind (by simp [overHundred])]
  rcases readAll_operand hts with ⟨fault, hfault⟩ | ⟨output, houtput⟩
  · rw [(hfault _).1, (hfault _).2]
  · rw [(houtput _).1, (houtput _).2]
    exact finish_hundred_eq output hus

/-- Where the hundred is written before a further operand the brackets make a difference. -/
theorem ofInfix_overHundred_ne {before : List Token}
    (hbefore : ∀ output, ∃ pending, readAll (.filled output []) before =
      .ok (.ready (.number 100 :: output) pending)) (us vs listing : List Token) :
    ¬(ofInfix (ts ++ (before ++ us)) = .ok listing ∧
      ofInfix (overHundred ts ++ vs) = .ok listing) := by
  rw [ofInfix_eq_ok_iff_bind, ofInfix_eq_ok_iff_bind]
  rcases readAll_operand hts with ⟨fault, hfault⟩ | ⟨output, houtput⟩
  · rw [(hfault _).1]
    rintro ⟨h, -⟩
    cases h
  · obtain ⟨pending, hread⟩ := hbefore output
    rw [(houtput _).1, (houtput _).2, readAll_append_of_ok hread]
    exact finish_hundred_ne output pending us vs listing

/-- A literal or a call directly behind the hundred is refused. -/
theorem ofInfix_hundred_startsCall_ne {t : Token} (ht : Token.StartsCall t)
    (us listing : List Token) :
    ofInfix (ts ++ .operator .divide :: .number 100 :: t :: us) ≠ .ok listing := by
  rw [ofInfix_eq_bind (by simp)]
  rcases readAll_operand hts with ⟨fault, hfault⟩ | ⟨output, houtput⟩
  · rw [(hfault _).1]
    intro h
    cases h
  · have hhundred : readAll (.filled output []) (.operator .divide :: .number 100 :: t :: us) =
        readAll (.filled (.number 100 :: output) [.operator .divide]) (t :: us) := rfl
    rw [(houtput _).1, hhundred, readAll_filled_startsCall ht]
    intro h
    cases h

/-- A mark directly behind the closing bracket is refused. -/
theorem ofInfix_overHundred_mark_ne {t : Token}
    (ht : t = .factorialMark ∨ t = .permutationMark ∨ t = .combinationMark)
    (us listing : List Token) : ofInfix (overHundred ts ++ t :: us) ≠ .ok listing := by
  rw [ofInfix_eq_bind (by simp [overHundred])]
  rcases readAll_operand hts with ⟨fault, hfault⟩ | ⟨output, houtput⟩
  · rw [(hfault _).2]
    intro h
    cases h
  · rw [(houtput _).2]
    intro h
    rcases ht with rfl | rfl | rfl <;> cases h

end

end Postfix

open Token (Operand takesLiteral overHundred)

/-- The quotient in brackets, with what follows its closing bracket. -/
theorem overHundred_append (ts vs : List Token) :
    Token.opening :: (ts ++ Token.operator .divide :: Token.number 100 :: Token.closing :: vs) =
      overHundred ts ++ vs := by simp [overHundred]

/-- What does not take a literal before it starts with no percent sign. -/
theorem head?_ne_percent_of_takesLiteral {us : List Token} (h : takesLiteral us = false) :
    us.head? ≠ some .percent := by
  intro hus
  obtain ⟨vs, rfl⟩ := List.head?_eq_some_iff.1 hus
  cases h

/-- What does not take the hundred goes on from the quotient as from one in brackets. -/
theorem ofInfix_percent_eq {ts us : List Token} (hts : Operand ts) (h : takesLiteral us = false) :
    Expr.ofInfix (toPlain (ts ++ .percent :: us)) =
      Expr.ofInfix (toPlain (overHundred ts ++ us)) := by
  have hus := head?_ne_percent_of_takesLiteral h
  obtain ⟨n, hpercent, hbrackets⟩ := Token.exists_toPlain_operand hts hus
  have hfollows : ∀ b ∈ (resolvePercent us ++ List.replicate n Token.closing).head?,
      Token.Inert b ∧ b ≠ .operator .raise := by
    intro b hb
    cases hresolved : resolvePercent us with
    | nil =>
      rw [hresolved, List.nil_append] at hb
      rw [List.eq_of_mem_replicate (List.mem_of_mem_head? hb)]
      exact ⟨Token.inert_closing, by simp⟩
    | cons c vs =>
      have hbc : b = c := by
        rw [hresolved] at hb
        exact (Option.some.inj hb).symm
      refine Token.inert_of_not_takes fun hb => Bool.eq_false_iff.1 h ?_
      exact (Token.takesLiteral_iff hus).2 ⟨b, by rw [hresolved, hbc]; rfl, hb⟩
  obtain ⟨vs, hhead, hhundred, hclosing⟩ :=
    Token.exists_expandMarks_insertProducts fun b hb => (hfollows b hb).1
  have hvs : vs.head? ≠ some (.operator .raise) := by
    rcases hhead with hhead | ⟨hhead, -⟩
    · rw [hhead]
      exact fun h => (hfollows _ h).2 rfl
    · simp [hhead]
  rw [hpercent, hbrackets, hhundred, hclosing, overHundred_append]
  simp only [Expr.ofInfix]
  rw [Postfix.ofInfix_overHundred_eq hts.writeOut hvs]

/-- What takes the hundred is never read as it would be behind the quotient in brackets. -/
theorem ofInfix_percent_ne {ts us : List Token} (hts : Operand ts) (h : takesLiteral us = true)
    (e : Expr) : ¬(Expr.ofInfix (toPlain (ts ++ .percent :: us)) = .ok e ∧
      Expr.ofInfix (toPlain (overHundred ts ++ us)) = .ok e) := by
  rintro ⟨he, he'⟩
  have hlisting := (Expr.ofInfix_eq_ok_iff_listing.1 he).1
  have hlisting' := (Expr.ofInfix_eq_ok_iff_listing.1 he').1
  by_cases hus : us.head? = some .percent
  · -- The second sign divides the hundred, and a further hundred is read before the division.
    obtain ⟨us, rfl⟩ := List.head?_eq_some_iff.1 hus
    obtain ⟨vs, hpercent⟩ := Token.exists_toPlain_percent_percent hts us
    obtain ⟨ws, hbrackets⟩ := Token.exists_toPlain_overHundred ts (.percent :: us)
    rw [hpercent] at hlisting
    rw [hbrackets] at hlisting'
    have hbefore (output : List Token) : ∃ pending, Postfix.readAll (.filled output [])
        [.operator .divide, .opening, .number 100, .operator .divide] =
          .ok (.ready (.number 100 :: output) pending) := ⟨_, rfl⟩
    exact Postfix.ofInfix_overHundred_ne hts.writeOut hbefore vs ws _ ⟨hlisting, hlisting'⟩
  obtain ⟨n, hpercent, hbrackets⟩ := Token.exists_toPlain_operand hts hus
  obtain ⟨b, hb, hbtakes⟩ := (Token.takesLiteral_iff hus).1 h
  obtain ⟨vs, hresolved⟩ := List.head?_eq_some_iff.1 hb
  rw [hpercent, hresolved, List.cons_append] at hlisting
  rw [hbrackets, hresolved, List.cons_append] at hlisting'
  rcases hbtakes with ⟨w, rfl⟩ | rfl | hmark
  · obtain ⟨c, ws, hc, hwritten⟩ :=
      Token.exists_expandMarks_number w (vs ++ List.replicate n .closing)
    rw [hwritten] at hlisting
    exact Postfix.ofInfix_hundred_startsCall_ne hts.writeOut hc ws _ hlisting
  · have hinert : ∀ b ∈ (.operator .raise :: (vs ++ List.replicate n .closing)).head?,
        Token.Inert b := by simp [Token.Inert, Token.isNumber]
    obtain ⟨ws, hhead, hhundred, hclosing⟩ := Token.exists_expandMarks_insertProducts hinert
    have hws : ws.head? = some (.operator .raise) := by
      rcases hhead with hhead | ⟨-, c, hc, hstarts⟩
      · exact hhead
      · rw [← Option.some.inj hc] at hstarts
        cases hstarts
    obtain ⟨xs, rfl⟩ := List.head?_eq_some_iff.1 hws
    rw [hhundred] at hlisting
    rw [hclosing, overHundred_append] at hlisting'
    have hbefore (output : List Token) : ∃ pending, Postfix.readAll (.filled output [])
        [.operator .divide, .number 100, .operator .raise] =
          .ok (.ready (.number 100 :: output) pending) := ⟨_, rfl⟩
    exact Postfix.ofInfix_overHundred_ne hts.writeOut hbefore xs _ _ ⟨hlisting, hlisting'⟩
  · have hnumber : b.isNumber = false := by rcases hmark with rfl | rfl | rfl <;> rfl
    have hstarts : b.startsValue = false := by rcases hmark with rfl | rfl | rfl <;> rfl
    obtain ⟨ws, hclosing⟩ :=
      Token.exists_expandMarks_mark hnumber hstarts (vs ++ List.replicate n .closing)
    rw [hclosing, overHundred_append] at hlisting'
    exact Postfix.ofInfix_overHundred_mark_ne hts.writeOut hmark ws _ hlisting'

/--
A percent sign behind an operand that is no literal is a division by a hundred without brackets.
What follows goes on from the quotient as from one in brackets, unless it takes a literal before it
as its own. A power sign does so by the rank of operators: the hundred is raised, and the tree is
never that of the quotient in brackets.
-/
theorem percent_behind_operand {ts us : List Token} (hts : Operand ts) :
    (takesLiteral us = false ∨ us.head? = some (.operator .raise) →
        Expr.ofInfix (toPlain (ts ++ .percent :: us)) =
          Expr.ofInfix (toPlain (ts ++ .operator .divide :: .number 100 :: us))) ∧
      (takesLiteral us = false → Expr.ofInfix (toPlain (ts ++ .percent :: us)) =
        Expr.ofInfix (toPlain (overHundred ts ++ us))) ∧
      (us.head? = some (.operator .raise) → ∀ e,
        ¬(Expr.ofInfix (toPlain (ts ++ .percent :: us)) = .ok e ∧
          Expr.ofInfix (toPlain (overHundred ts ++ us)) = .ok e)) := by
  refine ⟨fun hus => ?_, ofInfix_percent_eq hts, fun hraise => ?_⟩
  · have hone : us.head? ≠ some .percent := by
      rcases hus with hus | hraise
      · exact head?_ne_percent_of_takesLiteral hus
      · simp [hraise]
    rw [toPlain, toPlain, Token.resolvePercent_operand_percent hts hone,
      Token.resolvePercent_divide ts hone]
  · obtain ⟨vs, rfl⟩ := List.head?_eq_some_iff.1 hraise
    exact ofInfix_percent_ne hts rfl

/-- Behind a call a percent sign before a sum divides the call as brackets would. -/
theorem percent_behind_call_before_sum :
    Operand (enclosed (some .sqrt) [.number 4]) ∧
      Expr.ofInfix (toPlain (enclosed (some .sqrt) [.number 4] ++
          .percent :: [.operator .add, .number 1])) =
        Expr.ofInfix (toPlain (overHundred (enclosed (some .sqrt) [.number 4]) ++
          [.operator .add, .number 1])) := by
  have hcall : Operand (enclosed (some .sqrt) [.number 4]) := .enclosed (some .sqrt) rfl
  exact ⟨hcall, (percent_behind_operand hcall).2.1 rfl⟩

/-- Behind a constant a power sign after the percent sign takes the hundred alone. -/
theorem percent_before_power_takes_hundred :
    Expr.ofInfix (toPlain ([.pi] ++ .percent :: [.operator .raise, .number 2])) =
        .ok (.binary .divide .pi (.binary .raise (.number 100) (.number 2))) ∧
      Expr.ofInfix (toPlain (overHundred [.pi] ++ [.operator .raise, .number 2])) =
        .ok (.binary .raise (.binary .divide .pi (.number 100)) (.number 2)) ∧
      Expr.ofInfix (toPlain ([.pi] ++ .percent :: [.operator .raise, .number 2])) ≠
        Expr.ofInfix (toPlain (overHundred [.pi] ++ [.operator .raise, .number 2])) := by
  have hpercent : Expr.ofInfix (toPlain ([.pi] ++ .percent :: [.operator .raise, .number 2])) =
      .ok (.binary .divide .pi (.binary .raise (.number 100) (.number 2))) := rfl
  have hbrackets : Expr.ofInfix (toPlain (overHundred [.pi] ++ [.operator .raise, .number 2])) =
      .ok (.binary .raise (.binary .divide .pi (.number 100)) (.number 2)) := rfl
  refine ⟨hpercent, hbrackets, fun h => ?_⟩
  rw [hpercent, hbrackets] at h
  cases h

end SciCalc
