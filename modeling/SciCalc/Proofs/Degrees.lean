import SciCalc.Proofs.Seams
import SciCalc.Token.Degrees

/-!
# Degrees in parts

The conversion of angles carries along which open brackets close twice. Joined tokens are converted
part by part once the brackets open between them are known; what is open below does not matter to
tokens that do not close it. So matching tokens stay matching, and closing brackets at the end are
only multiplied.
-/

set_option autoImplicit false

namespace SciCalc.Token

/-- The open brackets behind tokens, innermost first; `true` marks one that closes twice. -/
def withinAfter : List Bool → List Token → List Bool
  | within, function f :: opening :: ts => withinAfter (f.takesAngle :: within) ts
  | within, opening :: ts => withinAfter (false :: within) ts
  | within, closing :: ts => withinAfter within.tail ts
  | within, _ :: ts => withinAfter within ts
  | within, [] => within

/-- What a closing bracket becomes. -/
def closings : List Bool → List Token
  | true :: _ => [closing, closing]
  | _ => [closing]

/-- How many closing brackets the open brackets take. -/
def weight : List Bool → Nat
  | [] => 0
  | twice :: within => (if twice then 2 else 1) + weight within

/-- The innermost bracket is counted apart. -/
theorem weight_cons (twice : Bool) (within : List Bool) :
    weight (twice :: within) = (if twice then 2 else 1) + weight within := rfl

/-- Brackets around others are counted apart. -/
theorem weight_append (within below : List Bool) :
    weight (within ++ below) = weight within + weight below := by
  induction within with
  | nil => simp [weight]
  | cons twice within ih => simp [weight_cons, ih, Nat.add_assoc]

/-! ## One token -/

/-- A function name does not stand before its bracket. -/
def NoCallee (a b : Token) : Prop := b = opening → ∀ f, a ≠ function f

/-- A token that is no function before a bracket calls nothing. -/
theorem noCallee_of_ne {t : Token} {ts : List Token}
    (h : ∀ f us, t = function f → ts = opening :: us → False) : ∀ b ∈ ts.head?, NoCallee t b := by
  rintro b hb rfl f rfl
  obtain ⟨us, rfl⟩ := List.head?_eq_some_iff.1 hb
  exact h f us rfl rfl

section

variable (within : List Bool)

/-- Where there is no token nothing is converted. -/
theorem convertWithin_nil : convertWithin within [] = [] := by
  cases within <;> rfl

/-- The conversion of a call. -/
theorem convertWithin_call (f : MathFunction) (ts : List Token) :
    convertWithin within (function f :: opening :: ts) =
      (if f.takesAngle then openInDegrees f else [function f, opening]) ++
        convertWithin (f.takesAngle :: within) ts := by
  rw [convertWithin]
  cases f.takesAngle <;> rfl

/-- The conversion of a bracket. -/
theorem convertWithin_opening (ts : List Token) :
    convertWithin within (opening :: ts) = opening :: convertWithin (false :: within) ts := by
  rw [convertWithin]

/-- The conversion of a closing bracket. -/
theorem convertWithin_closing (ts : List Token) :
    convertWithin within (closing :: ts) = closings within ++ convertWithin within.tail ts := by
  rcases within with _ | ⟨_ | _, within⟩
  · rw [convertWithin]
    · rfl
    · simp
  · rw [convertWithin]
    · rfl
    · simp
  · rfl

/-- A closing bracket closes the innermost one. -/
theorem withinAfter_closing (ts : List Token) :
    withinAfter within (closing :: ts) = withinAfter within.tail ts := by
  cases within <;> rfl

/-- Any other token stays as it is. -/
theorem convertWithin_cons {t : Token} {ts : List Token} (ho : t ≠ opening) (hc : t ≠ closing)
    (hcallee : ∀ b ∈ ts.head?, NoCallee t b) :
    convertWithin within (t :: ts) = t :: convertWithin within ts ∧
      withinAfter within (t :: ts) = withinAfter within ts := by
  cases t with
  | opening => exact absurd rfl ho
  | closing => exact absurd rfl hc
  | function f =>
    cases ts with
    | nil => cases within <;> exact ⟨rfl, rfl⟩
    | cons b ts =>
      have hb : b ≠ opening := fun hb => hcallee b rfl hb f rfl
      cases b with
      | opening => exact absurd rfl hb
      | _ => rcases within with _ | ⟨_ | _, _⟩ <;> exact ⟨rfl, rfl⟩
  | _ => rcases within with _ | ⟨_ | _, _⟩ <;> exact ⟨rfl, rfl⟩

end

/-! ## Joined tokens -/

/-- Angles are converted part by part. -/
theorem convertWithin_append {ts us : List Token} (h : Seam NoCallee ts us) (within : List Bool) :
    convertWithin within (ts ++ us) =
        convertWithin within ts ++ convertWithin (withinAfter within ts) us ∧
      withinAfter within (ts ++ us) = withinAfter (withinAfter within ts) us := by
  fun_induction withinAfter within ts with
  | case1 within f ts ih =>
    obtain ⟨ih, ih'⟩ := ih (Seam.of_append [_, _] h)
    refine ⟨?_, ih'⟩
    rw [List.cons_append, List.cons_append, convertWithin_call, convertWithin_call, ih,
      List.append_assoc]
  | case2 within ts ih =>
    obtain ⟨ih, ih'⟩ := ih h.of_cons
    refine ⟨?_, ih'⟩
    rw [List.cons_append, convertWithin_opening, convertWithin_opening, ih, List.cons_append]
  | case3 within ts ih =>
    obtain ⟨ih, ih'⟩ := ih h.of_cons
    refine ⟨?_, ?_⟩
    · rw [List.cons_append, convertWithin_closing, convertWithin_closing, ih, List.append_assoc]
    · rw [List.cons_append, withinAfter_closing, ih']
  | case4 within t ts hcall ho hc ih =>
    obtain ⟨ih, ih'⟩ := ih h.of_cons
    have htsus : ∀ b ∈ (ts ++ us).head?, NoCallee t b := by
      cases ts with
      | nil => exact fun b hb => h t rfl b hb
      | cons b ts =>
        have hb : ∀ c ∈ (b :: ts).head?, NoCallee t c := noCallee_of_ne hcall
        exact hb
    have hpart := convertWithin_cons within ho hc (noCallee_of_ne hcall)
    have hwhole := convertWithin_cons within ho hc htsus
    rw [List.cons_append, hpart.1, hwhole.1, hwhole.2, ih, ih']
    exact ⟨rfl, rfl⟩
  | case5 within => exact ⟨rfl, rfl⟩

/-! ## Open brackets -/

/--
Tokens that close only brackets they can count on are converted the same above any other brackets,
and leave those as they are.
-/
theorem convertWithin_below (within : List Bool) {ts : List Token} {m : Nat}
    (h : depthAfter within.length ts = some m) (below : List Bool) :
    convertWithin (within ++ below) ts = convertWithin within ts ∧
      withinAfter (within ++ below) ts = withinAfter within ts ++ below ∧
      (withinAfter within ts).length = m := by
  fun_induction withinAfter within ts with
  | case1 within f ts ih =>
    rw [depthAfter_cons_of_ne (by simp) (by simp), depthAfter] at h
    obtain ⟨ih, ih', hlen⟩ := ih h
    refine ⟨?_, ih', hlen⟩
    rw [convertWithin_call, convertWithin_call, ← List.cons_append, ih]
  | case2 within ts ih =>
    obtain ⟨ih, ih', hlen⟩ := ih h
    refine ⟨?_, ih', hlen⟩
    rw [convertWithin_opening, convertWithin_opening, ← List.cons_append, ih]
  | case3 within ts ih =>
    cases within with
    | nil => cases h
    | cons twice within =>
      obtain ⟨ih, ih', hlen⟩ := ih h
      refine ⟨?_, ih', hlen⟩
      rw [convertWithin_closing, convertWithin_closing]
      cases twice <;> exact congrArg _ ih
  | case4 within t ts hcall ho hc ih =>
    rw [depthAfter_cons_of_ne ho hc] at h
    obtain ⟨ih, ih', hlen⟩ := ih h
    have habove := convertWithin_cons within ho hc (noCallee_of_ne hcall)
    have hall := convertWithin_cons (within ++ below) ho hc (noCallee_of_ne hcall)
    rw [hall.1, hall.2, habove.1, ih]
    exact ⟨rfl, ih', hlen⟩
  | case5 within =>
    cases h
    exact ⟨rfl, rfl, rfl⟩

/--
The depth behind converted tokens counts the brackets that close twice twice, and it is lost exactly
where the tokens lose theirs.
-/
theorem depthAfter_convertWithin (within : List Bool) (ts : List Token) :
    depthAfter (weight within) (convertWithin within ts) =
      (depthAfter within.length ts).map fun _ => weight (withinAfter within ts) := by
  fun_induction withinAfter within ts with
  | case1 within f ts ih =>
    rw [depthAfter_cons_of_ne (t := function f) (by simp) (by simp), depthAfter]
    rw [weight_cons, Nat.add_comm] at ih
    rw [convertWithin_call]
    cases hf : f.takesAngle <;> rw [hf] at ih <;> exact ih
  | case2 within ts ih =>
    rw [weight_cons, Nat.add_comm] at ih
    rw [convertWithin_opening]
    exact ih
  | case3 within ts ih =>
    rw [convertWithin_closing]
    cases within with
    | nil => rfl
    | cons twice within =>
      rw [weight_cons, Nat.add_comm]
      cases twice <;> exact ih
  | case4 within t ts hcall ho hc ih =>
    rw [(convertWithin_cons _ ho hc (noCallee_of_ne hcall)).1, depthAfter_cons_of_ne ho hc,
      depthAfter_cons_of_ne ho hc, ih]
  | case5 within => rfl

/-- Closing brackets for all that is open are multiplied. -/
theorem convertWithin_replicate_closing (within : List Bool) :
    convertWithin within (List.replicate within.length closing) =
      List.replicate (weight within) closing := by
  induction within with
  | nil => rfl
  | cons twice within ih =>
    rw [List.length_cons, List.replicate_succ, convertWithin_closing, weight_cons]
    cases twice with
    | false =>
      rw [if_neg (by simp), Nat.add_comm, List.replicate_succ]
      exact congrArg _ ih
    | true =>
      rw [if_pos rfl, Nat.add_comm, List.replicate_succ, List.replicate_succ]
      exact congrArg (fun ts => closing :: closing :: ts) ih

/-! ## Calls and bare tokens -/

/-- What the conversion makes of what a bracket or a call encloses. -/
def inDegrees (callee : Option MathFunction) (ts : List Token) : List Token :=
  if callee.any MathFunction.takesAngle then
    [pi, operator .divide, number 180, operator .multiply] ++ enclosed none (convertWithin [] ts)
  else convertWithin [] ts

/-- Matching tokens still match once they are converted. -/
theorem Matched.convertWithin {ts : List Token} (h : Matched ts) :
    Matched (convertWithin [] ts) := by
  have hdepth := depthAfter_convertWithin [] ts
  rw [List.length_nil, h] at hdepth
  obtain ⟨-, -, hlen⟩ := convertWithin_below [] h []
  rw [List.length_eq_zero_iff.1 hlen] at hdepth
  exact hdepth

/-- Matching tokens match in the bracket of a call in degrees. -/
theorem Matched.inDegrees {ts : List Token} (h : Matched ts) (callee : Option MathFunction) :
    Matched (inDegrees callee ts) := by
  rw [Token.inDegrees]
  split
  · exact h.convertWithin.enclosed none
  · exact h.convertWithin

/-- Matching tokens and the bracket behind them are converted apart from what follows. -/
theorem convertWithin_append_closing {ts : List Token} (hts : Matched ts) (twice : Bool)
    (within : List Bool) (rest : List Token) :
    convertWithin (twice :: within) (ts ++ closing :: rest) =
      convertWithin [] ts ++ (closings (twice :: within) ++ convertWithin within rest) := by
  obtain ⟨hconvert, hafter, hlen⟩ := convertWithin_below [] hts (twice :: within)
  rw [List.length_eq_zero_iff.1 hlen, List.nil_append] at hafter
  have hseam : Seam NoCallee ts (closing :: rest) := seam_cons_right.2 fun a _ h => by simp at h
  rw [(convertWithin_append hseam _).1, hafter, convertWithin_closing]
  exact congrArg (· ++ _) hconvert

/-- What a bracket or a call encloses is converted by itself. -/
theorem convertWithin_enclosed (callee : Option MathFunction) {ts : List Token} (hts : Matched ts)
    (within : List Bool) (rest : List Token) :
    convertWithin within (enclosed callee ts ++ rest) =
      enclosed callee (inDegrees callee ts) ++ convertWithin within rest := by
  cases callee with
  | none =>
    have hsplit : enclosed none ts ++ rest = opening :: (ts ++ closing :: rest) := by
      simp [enclosed]
    rw [hsplit, convertWithin_opening, convertWithin_append_closing hts]
    simp [enclosed, closings, inDegrees]
  | some f =>
    have hsplit : enclosed (some f) ts ++ rest =
        function f :: opening :: (ts ++ closing :: rest) := by
      simp [enclosed]
    rw [hsplit, convertWithin_call, convertWithin_append_closing hts]
    cases hf : f.takesAngle <;> simp [enclosed, closings, inDegrees, openInDegrees, hf]

/-- Tokens, and a bracket or a call behind them, are converted apart from what follows. -/
theorem convertWithin_append_enclosed {before ts : List Token} {callee : Option MathFunction}
    (hts : Matched ts) (hcallee : callee = none → ∀ f, before.getLast? ≠ some (function f))
    (within : List Bool) (rest : List Token) :
    convertWithin within (before ++ enclosed callee ts ++ rest) =
      convertWithin within before ++ enclosed callee (inDegrees callee ts) ++
        convertWithin (withinAfter within before) rest := by
  have hseam : Seam NoCallee before (enclosed callee ts ++ rest) := by
    cases callee with
    | none => exact seam_cons_right.2 fun a ha _ f haf => hcallee rfl f (haf ▸ ha)
    | some f => exact seam_cons_right.2 fun a _ h => by cases h
  rw [List.append_assoc, (convertWithin_append hseam within).1, convertWithin_enclosed callee hts,
    List.append_assoc]

/-- The last token of what a last token becomes, if it does not end a call's opening. -/
theorem getLast?_convertWithin_singleton (within : List Bool) (t : Token) :
    (convertWithin within [t]).getLast? = some t := by
  by_cases ho : t = opening
  · subst ho
    rw [convertWithin_opening]
    rfl
  by_cases hc : t = closing
  · subst hc
    rw [convertWithin_closing]
    rcases within with _ | ⟨_ | _, within⟩ <;> rfl
  · rw [(convertWithin_cons _ ho hc (by simp)).1]
    rfl

/-- The conversion keeps the last token. -/
theorem getLast?_convertWithin (within : List Bool) (ts : List Token) (t : Token) :
    (convertWithin within (ts ++ [t])).getLast? = some t := by
  by_cases hseam : Seam NoCallee ts [t]
  · rw [(convertWithin_append hseam within).1, List.getLast?_append,
      getLast?_convertWithin_singleton]
    rfl
  · -- The last token opens the bracket of a call.
    simp only [Seam, NoCallee, List.head?_cons, Option.mem_def, Option.some.injEq, forall_eq',
      Classical.not_forall, Classical.not_not] at hseam
    obtain ⟨a, ha, rfl, f, rfl⟩ := hseam
    obtain ⟨us, rfl⟩ := List.getLast?_eq_some_iff.1 ha
    have hsplit : us ++ [function f] ++ [opening] = us ++ [function f, opening] := by simp
    have hcall : Seam NoCallee us [function f, opening] :=
      seam_cons_right.2 fun a _ h => by simp at h
    rw [hsplit, (convertWithin_append hcall within).1, convertWithin_call, List.getLast?_append,
      convertWithin_nil]
    cases f.takesAngle <;> simp [openInDegrees]

/-- Bare tokens are left as they are. -/
theorem convertWithin_bare {within : List Bool} {ts : List Token} (h : Bare ts) :
    convertWithin within ts = ts := by
  induction ts generalizing within with
  | nil => exact convertWithin_nil within
  | cons t ts ih =>
    have hts : Bare ts := fun u hu => h u (by simp [hu])
    rcases h t (by simp) with rfl | rfl
    · rw [convertWithin_opening, ih hts]
    · rw [(convertWithin_cons _ (by simp) (by simp) (by simp [NoCallee])).1, ih hts]

/-- Only bare tokens become bare ones. -/
theorem bare_of_convertWithin {within : List Bool} {ts : List Token}
    (h : Bare (convertWithin within ts)) : Bare ts := by
  have hcons {t : Token} {ts us : List Token} (hus : Bare (t :: us)) (hts : Bare us → Bare ts) :
      Bare (t :: ts) := by
    intro u hu
    rcases List.mem_cons.1 hu with rfl | hu
    · exact hus u (by simp)
    · exact hts (fun v hv => hus v (by simp [hv])) u hu
  fun_induction convertWithin within ts with
  | case1 within f ts _ _ => simpa using h (function f) (by simp [openInDegrees])
  | case2 within f ts _ _ => simpa using h (function f) (by simp)
  | case3 within ts ih => exact hcons h ih
  | case4 within ts _ => simpa using h closing (by simp)
  | case5 within ts _ _ => simpa using h closing (by simp)
  | case6 within t ts _ _ _ _ ih => exact hcons h ih
  | case7 => exact h

end SciCalc.Token
