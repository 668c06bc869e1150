import SciCalc.Token

/-!
# Nesting

How deep tokens stand in brackets. The depth starts at some number of open brackets and is lost
where a closing bracket has no opening one before it. Tokens match when the depth goes from zero to
zero: every bracket in them is closed in them and closes one of them.
-/

set_option autoImplicit false

namespace SciCalc.Token

/-- How many brackets are open behind the tokens, unless one of them closes a missing bracket. -/
def depthAfter : Nat → List Token → Option Nat
  | n, [] => some n
  | n, opening :: ts => depthAfter (n + 1) ts
  | 0, closing :: _ => none
  | n + 1, closing :: ts => depthAfter n ts
  | n, _ :: ts => depthAfter n ts

/-- Every bracket in the tokens has its partner in them. -/
def Matched (ts : List Token) : Prop := depthAfter 0 ts = some 0

/-- Whether tokens match can be computed from them. -/
instance (ts : List Token) : Decidable (Matched ts) :=
  inferInstanceAs (Decidable (depthAfter 0 ts = some 0))

/-- A token that is no bracket leaves the depth as it is. -/
theorem depthAfter_cons_of_ne {t : Token} (ho : t ≠ opening) (hc : t ≠ closing) (n : Nat)
    (ts : List Token) : depthAfter n (t :: ts) = depthAfter n ts := by
  cases t with
  | opening => exact absurd rfl ho
  | closing => exact absurd rfl hc
  | _ => cases n <;> rfl

/-- The depth behind joined tokens is taken one part after the other. -/
theorem depthAfter_append (n : Nat) (ts us : List Token) :
    depthAfter n (ts ++ us) = (depthAfter n ts).bind fun m => depthAfter m us := by
  fun_induction depthAfter n ts with
  | case1 n => simp
  | case2 n ts ih => simpa [depthAfter] using ih
  | case3 ts => simp [depthAfter]
  | case4 n ts ih => simpa [depthAfter] using ih
  | case5 n t ts ho hc₀ hc ih =>
    have htc : t ≠ closing := by
      rintro rfl
      cases n with
      | zero => exact hc₀ rfl rfl
      | succ n => exact hc n rfl rfl
    rw [List.cons_append, depthAfter_cons_of_ne ho htc]
    exact ih

/-- Tokens that change the depth alike do so behind another token. -/
theorem depthAfter_cons_congr {ts us : List Token} (t : Token)
    (h : ∀ n, depthAfter n ts = depthAfter n us) (n : Nat) :
    depthAfter n (t :: ts) = depthAfter n (t :: us) := by
  have hts := depthAfter_append n [t] ts
  have hus := depthAfter_append n [t] us
  rw [List.singleton_append] at hts hus
  rw [hts, hus]
  exact congrArg _ (funext h)

/-- Brackets that are open from the start stay open below. -/
theorem depthAfter_add {n m : Nat} {ts : List Token} (h : depthAfter n ts = some m) (k : Nat) :
    depthAfter (n + k) ts = some (m + k) := by
  induction ts generalizing n with
  | nil =>
    cases h
    rfl
  | cons t ts ih =>
    by_cases ho : t = opening
    · subst ho
      rw [depthAfter] at h ⊢
      rw [Nat.add_right_comm]
      exact ih h
    by_cases hc : t = closing
    · subst hc
      cases n with
      | zero => cases h
      | succ n =>
        rw [Nat.add_right_comm]
        exact ih h
    · rw [depthAfter_cons_of_ne ho hc] at h ⊢
      exact ih h

/-- The depth counts the opening brackets against the closing ones. -/
theorem count_of_depthAfter {n m : Nat} {ts : List Token} (h : depthAfter n ts = some m) :
    n + ts.count opening = m + ts.count closing := by
  induction ts generalizing n with
  | nil =>
    cases h
    rfl
  | cons t ts ih =>
    by_cases ho : t = opening
    · subst ho
      rw [depthAfter] at h
      have := ih h
      simp only [List.count_cons_self, List.count_cons_of_ne (by decide : opening ≠ closing)]
      omega
    by_cases hc : t = closing
    · subst hc
      cases n with
      | zero => cases h
      | succ n =>
        have := ih h
        simp only [List.count_cons_self, List.count_cons_of_ne (by decide : closing ≠ opening)]
        omega
    · rw [depthAfter_cons_of_ne ho hc] at h
      simpa [ho, hc] using ih h

/-- Matching tokens keep every depth. -/
theorem Matched.depthAfter_eq {ts : List Token} (h : Matched ts) (n : Nat) :
    depthAfter n ts = some n := by simpa using depthAfter_add h n

/-- Matching tokens may stand anywhere without a trace in the depth. -/
theorem Matched.depthAfter_append {ts : List Token} (h : Matched ts) (n : Nat) (us : List Token) :
    depthAfter n (ts ++ us) = depthAfter n us := by
  rw [Token.depthAfter_append, h.depthAfter_eq]
  rfl

/-- Matching tokens match behind a token that is no bracket. -/
theorem Matched.cons {t : Token} (ho : t ≠ opening) (hc : t ≠ closing) {ts : List Token}
    (h : Matched ts) : Matched (t :: ts) := by
  rw [Matched, depthAfter_cons_of_ne ho hc]
  exact h

/-- Matching tokens with a token between them that is no bracket match. -/
theorem Matched.append_cons {ts us : List Token} (hts : Matched ts) {t : Token} (ho : t ≠ opening)
    (hc : t ≠ closing) (hus : Matched us) : Matched (ts ++ t :: us) := by
  rw [Matched, hts.depthAfter_append]
  exact hus.cons ho hc

/-- Matching arguments match with commas between them. -/
theorem matched_intercalate {args : List (List Token)} (h : ∀ ts ∈ args, Matched ts) :
    Matched ([comma].intercalate args) := by
  induction args with
  | nil => rfl
  | cons ts args ih =>
    cases args with
    | nil => simpa using h ts
    | cons us args =>
      have ih := ih fun vs hvs => h vs (by simp [hvs])
      rw [List.intercalate_cons_cons, List.append_assoc]
      exact (h ts (by simp)).append_cons (by simp) (by simp) ih

/-- A bracket around matching tokens matches. -/
theorem Matched.bracketed {ts : List Token} (h : Matched ts) :
    Matched (opening :: (ts ++ [closing])) := by
  rw [Matched, depthAfter, h.depthAfter_append]
  rfl

/-- Tokens in brackets, which are those of a call if there is a function. -/
def enclosed (callee : Option MathFunction) (ts : List Token) : List Token :=
  (callee.map function).toList ++ opening :: (ts ++ [closing])

/-- A bracket or a call of matching tokens matches. -/
theorem Matched.enclosed {ts : List Token} (h : Matched ts) (callee : Option MathFunction) :
    Matched (enclosed callee ts) := by
  cases callee <;> exact h.bracketed

/-- Nothing but opening brackets and plus signs. -/
def Bare (ts : List Token) : Prop := ∀ t ∈ ts, t = opening ∨ t = operator .add

/-- Where brackets are open, one of them is the last that is open. -/
theorem exists_last_open {ts : List Token} {n : Nat} (h : depthAfter 0 ts = some (n + 1)) :
    ∃ before after, ts = before ++ opening :: after ∧ depthAfter 0 before = some n ∧
      Matched after := by
  induction hlen : ts.length using Nat.strongRecOn generalizing ts n with
  | ind len ih =>
    rcases List.eq_nil_or_concat ts with rfl | ⟨us, t, rfl⟩
    · cases h
    rw [List.concat_eq_append, depthAfter_append] at h
    rw [List.length_concat] at hlen
    rcases hus : depthAfter 0 us with _ | m
    · rw [hus] at h
      cases h
    rw [hus] at h
    have ht : depthAfter m [t] = some (n + 1) := h
    by_cases ho : t = opening
    · subst ho
      have hm : m = n := by simpa [depthAfter] using ht
      exact ⟨us, [], by simp, by rw [hus, hm], rfl⟩
    by_cases hc : t = closing
    · -- The bracket that is closed stands behind the last one that stays open.
      subst hc
      have hm : m = n + 1 + 1 := by
        cases m with
        | zero => cases ht
        | succ m => simpa [depthAfter] using ht
      rw [hm] at hus
      obtain ⟨before₁, after₁, rfl, hbefore₁, hafter₁⟩ := ih us.length (by omega) hus rfl
      obtain ⟨before, after, rfl, hbefore, hafter⟩ :=
        ih before₁.length (by simp at hlen; omega) hbefore₁ rfl
      refine ⟨before, after ++ opening :: (after₁ ++ [closing]), by simp, hbefore, ?_⟩
      rw [Matched, hafter.depthAfter_append]
      exact hafter₁.bracketed
    · rw [depthAfter_cons_of_ne ho hc, depthAfter] at ht
      have hm : m = n + 1 := Option.some.inj ht
      rw [hm] at hus
      obtain ⟨before, after, rfl, hbefore, hafter⟩ := ih us.length (by omega) hus rfl
      refine ⟨before, after ++ [t], by simp, hbefore, ?_⟩
      rw [Matched, hafter.depthAfter_append, depthAfter_cons_of_ne ho hc]
      rfl

end SciCalc.Token
