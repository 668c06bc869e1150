import SciCalc.Proofs.Degrees
import SciCalc.Proofs.Enclosing
import SciCalc.Proofs.Parsing

/-!
# Angles in the tree

The conversion to degrees rewrites tokens from left to right; on trees it multiplies the argument of
every sine, cosine and tangent by π / 180 and leaves the rest. That tokens which derive a tree
derive the converted tree once they are converted is an induction on the derivation, since each part
of it matches and is converted by itself. That converted tokens derive nothing else is a simulation:
beside every run over converted tokens goes one over the tokens themselves, and the two stacks
mirror each other, bracket by bracket.
-/

set_option autoImplicit false

namespace SciCalc

/-! ## The conversion of a tree -/

/-- A function of an angle takes one argument. -/
theorem MathFunction.arity_of_takesAngle {f : MathFunction} (hf : f.takesAngle = true) :
    f.arity = 1 := by
  cases f <;> simp_all [takesAngle, arity]

namespace Expr

/-- An angle in degrees, times π / 180. -/
def scaled (e : Expr) : Expr := binary .multiply (binary .divide pi (number 180)) e

mutual

/-- The tree with every argument of sine, cosine and tangent times π / 180. -/
def inDegrees : Expr → Expr
  | number v => number v
  | pi => pi
  | answer => answer
  | negate e => negate e.inDegrees
  | binary op l r => binary op l.inDegrees r.inDegrees
  | call f args =>
    call f (if f ∈ [MathFunction.sin, .cos, .tan] then (inDegreesAll args).map scaled
      else inDegreesAll args)

/-- All the trees with their angles times π / 180. -/
def inDegreesAll : List Expr → List Expr
  | [] => []
  | e :: es => e.inDegrees :: inDegreesAll es

end

/-- A call is converted as its function takes an angle or not. -/
theorem inDegrees_call (f : MathFunction) (args : List Expr) :
    (call f args).inDegrees =
      call f (if f.takesAngle then (inDegreesAll args).map scaled else inDegreesAll args) := by
  simp only [inDegrees, MathFunction.takesAngle_iff]

/-- Trees are converted one by one. -/
theorem inDegreesAll_eq_map (es : List Expr) : inDegreesAll es = es.map inDegrees := by
  induction es with
  | nil => rfl
  | cons e es ih => rw [inDegreesAll, ih, List.map_cons]

end Expr

/-! ## Converted parts of a derivation -/

namespace Token

/-- Matching tokens and what stands behind a token that is no bracket are converted apart. -/
theorem convertWithin_append_cons {ts : List Token} (h : Matched ts) {t : Token} (ho : t ≠ opening)
    (hc : t ≠ closing) (hf : ∀ f, t ≠ function f) (us : List Token) :
    convertWithin [] (ts ++ t :: us) = convertWithin [] ts ++ t :: convertWithin [] us := by
  have hseam : Seam NoCallee ts (t :: us) := seam_cons_right.2 fun _ _ hopen => absurd hopen ho
  obtain ⟨-, -, hlen⟩ := convertWithin_below [] h []
  rw [(convertWithin_append hseam []).1, List.length_eq_zero_iff.1 hlen,
    (convertWithin_cons [] ho hc fun _ _ _ f => hf f).1]

/-- Arguments are converted one by one. -/
theorem convertWithin_intercalate {args : List (List Token)} (h : ∀ ts ∈ args, Matched ts) :
    convertWithin [] ([comma].intercalate args) =
      [comma].intercalate (args.map (convertWithin [])) := by
  induction args with
  | nil => rfl
  | cons ts args ih =>
    cases args with
    | nil => simp
    | cons us args =>
      have ih := ih fun vs hvs => h vs (by simp [hvs])
      have hconvert := convertWithin_append_cons (h ts (by simp)) (t := comma) (by simp) (by simp)
        (by simp) ([comma].intercalate (us :: args))
      rw [ih] at hconvert
      simpa [List.intercalate_cons_cons] using hconvert

end Token

namespace Grammar

open Token (Matched enclosed convertWithin)

/-- Behind the factor π / 180 and in brackets, a sum is a product. -/
theorem Derives.scaled {ts : List Token} {e : Expr} (h : Derives .plain .sum ts e) :
    Derives .plain .sum
      ([.pi, .operator .divide, .number 180, .operator .multiply] ++ enclosed none ts)
      e.scaled := by
  have hpi : Derives .plain .product [.pi] .pi :=
    .productOfSigned (.signedOfPower (.powerOfAtom .pi))
  have hhalf : Derives .plain .signed [.number 180] (.number 180) :=
    .signedOfPower (.powerOfAtom (.number 180))
  have hfactor := Derives.product (.inr rfl) hpi hhalf
  have hangle : Derives .plain .signed (enclosed none ts) e :=
    .signedOfPower (.powerOfAtom (.bracketed h))
  exact .sumOfProduct (.product (.inl rfl) hfactor hangle)

/-- A call whose arguments derive their trees converted derives its tree converted. -/
theorem Derives.call_inDegrees {f : MathFunction} {args : List (List Token × Expr)}
    (hlen : args.length = f.arity) (hmatched : ∀ a ∈ args, Matched a.1)
    (h : ∀ a ∈ args, Derives .plain .sum (convertWithin [] a.1) a.2.inDegrees) :
    Derives .plain .atom
      (convertWithin [] (enclosed (some f) ([Token.comma].intercalate (args.map Prod.fst))))
      (Expr.call f (args.map Prod.snd)).inDegrees := by
  have hargs : ∀ ts ∈ args.map Prod.fst, Matched ts := by simpa using hmatched
  have hconvert := Token.convertWithin_enclosed (some f) (Token.matched_intercalate hargs) [] []
  rw [List.append_nil, convertWithin, List.append_nil] at hconvert
  rw [hconvert, Expr.inDegrees_call, Expr.inDegreesAll_eq_map, Token.inDegrees,
    Token.convertWithin_intercalate hargs]
  cases hf : f.takesAngle with
  | true =>
    obtain ⟨a, rfl⟩ := List.length_eq_one_iff.1 (hlen.trans (MathFunction.arity_of_takesAngle hf))
    let angle := [.pi, .operator .divide, .number 180, .operator .multiply] ++
      enclosed none (convertWithin [] a.1)
    have hangle : ∀ b ∈ [(angle, a.2.inDegrees.scaled)], Derives .plain .sum b.1 b.2 :=
      List.forall_mem_singleton.2 (h a (by simp)).scaled
    have hone : [(angle, a.2.inDegrees.scaled)].length = f.arity := hlen
    have hcall := Derives.call_of_list hone hangle
    simpa [angle, hf, enclosed] using hcall
  | false =>
    let parts := args.map fun a => (convertWithin [] a.1, a.2.inDegrees)
    have hparts : ∀ b ∈ parts, Derives .plain .sum b.1 b.2 := List.forall_mem_map.2 h
    have hcall := Derives.call_of_list (f := f) (by simpa [parts] using hlen) hparts
    simpa [parts, hf, enclosed, Function.comp_def] using hcall

/-- Converted tokens derive the converted tree. -/
theorem Derives.inDegrees {c : Category} {ts : List Token} {e : Expr}
    (h : Derives .plain c ts e) : Derives .plain c (convertWithin [] ts) e.inDegrees := by
  induction h with
  | sumOfProduct _ ih => exact .sumOfProduct ih
  | sum hop hl _ ihl ihr =>
    rw [Token.convertWithin_append_cons hl.matched (by simp) (by simp) (by simp)]
    exact .sum hop ihl ihr
  | productOfSigned _ ih => exact .productOfSigned ih
  | product hop hl _ ihl ihr =>
    rw [Token.convertWithin_append_cons hl.matched (by simp) (by simp) (by simp)]
    exact .product hop ihl ihr
  | juxtaposed hjoins _ _ _ _ => exact False.elim hjoins
  | signedOfPower _ ih => exact .signedOfPower ih
  | minus _ ih => exact .minus ih
  | plus _ ih => exact .plus ih
  | powerOfAtom _ ih => exact .powerOfAtom ih
  | power hb _ ihb ihx =>
    rw [Token.convertWithin_append_cons hb.matched (by simp) (by simp) (by simp)]
    exact .power ihb ihx
  | number v => exact .number v
  | pi => exact .pi
  | answer => exact .answer
  | leaf hleaf => exact False.elim hleaf
  | @bracketed ts e hsum ih =>
    have hconvert := Token.convertWithin_enclosed none hsum.matched [] []
    rw [List.append_nil, convertWithin, List.append_nil] at hconvert
    have hatom : convertWithin [] (.opening :: (ts ++ [.closing])) =
        .opening :: (convertWithin [] ts ++ [.closing]) := hconvert
    rw [hatom]
    exact .bracketed ih
  | call f arguments trees hargs ih =>
    let parts := List.ofFn fun i => (arguments i, trees i)
    have hmatched : ∀ a ∈ parts, Matched a.1 := by
      simpa [parts, List.mem_ofFn] using fun i => (hargs i).matched
    have hparts : ∀ a ∈ parts, Derives .plain .sum (convertWithin [] a.1) a.2.inDegrees := by
      simpa [parts, List.mem_ofFn] using ih
    have hcall := Derives.call_inDegrees List.length_ofFn hmatched hparts
    rw [List.map_ofFn, List.map_ofFn] at hcall
    exact hcall

end Grammar

/-! ## A run beside the converted one -/

namespace Token

/-- The conversion keeps the first token. -/
theorem head?_convertWithin (within : List Bool) (ts : List Token) :
    (convertWithin within ts).head? = ts.head? := by
  cases ts with
  | nil => rw [convertWithin_nil]
  | cons t ts =>
    by_cases ho : t = opening
    · rw [ho, convertWithin_opening, List.head?_cons, List.head?_cons]
    by_cases hc : t = closing
    · rw [hc, convertWithin_closing]
      rcases within with _ | ⟨_ | _, within⟩ <;> rfl
    by_cases hcall : ∃ f us, t = function f ∧ ts = opening :: us
    · obtain ⟨f, us, rfl, rfl⟩ := hcall
      rw [convertWithin_call]
      cases f.takesAngle <;> rfl
    · have hcallee := noCallee_of_ne fun f us ht hts => hcall ⟨f, us, ht, hts⟩
      rw [(convertWithin_cons within ho hc hcallee).1, List.head?_cons, List.head?_cons]

end Token

namespace Postfix

open Token (convertWithin openInDegrees closings convertWithin_nil convertWithin_call
  convertWithin_opening convertWithin_closing convertWithin_cons)

/--
The second stack waits over converted tokens where the first waits over the tokens themselves: a
sine, cosine or tangent has opened a second bracket behind its factor. The open brackets that close
twice are marked as the conversion marks them.
-/
inductive Mirrors : List Bool → List Pending → List Pending → Prop where
  | nil : Mirrors [] [] []
  | angle {within : List Bool} {pending pending' : List Pending} {f : MathFunction} :
      f.takesAngle = true → Mirrors within pending pending' →
      Mirrors (true :: within) (.bracket (some f) 0 :: pending)
        (.bracket none 0 :: .operator .multiply :: .bracket (some f) 0 :: pending')
  | bracket {within : List Bool} {pending pending' : List Pending} {callee : Option MathFunction}
      (commas : Nat) : (∀ f, callee = some f → f.takesAngle = false) →
      Mirrors within pending pending' →
      Mirrors (false :: within) (.bracket callee commas :: pending)
        (.bracket callee commas :: pending')
  | other {within : List Bool} {pending pending' : List Pending} {x : Pending} :
      x.isBracket = false → Mirrors within pending pending' →
      Mirrors within (x :: pending) (x :: pending')

/-- What releases no bracket releases the same from stacks that mirror each other. -/
theorem Mirrors.exists_release {within : List Bool} {pending pending' : List Pending}
    (h : Mirrors within pending pending') {p : Pending → Bool}
    (hp : ∀ callee commas, p (.bracket callee commas) = false) :
    ∃ ops rest rest', pending = ops ++ rest ∧ pending' = ops ++ rest' ∧ (∀ x ∈ ops, p x = true) ∧
      Stops p rest ∧ Stops p rest' ∧ Mirrors within rest rest' := by
  induction h with
  | nil => exact ⟨[], [], [], rfl, rfl, by simp, stops_nil p, stops_nil p, .nil⟩
  | angle hf h _ =>
    exact ⟨[], _, _, rfl, rfl, by simp, stops_cons.2 (hp _ _), stops_cons.2 (hp _ _), .angle hf h⟩
  | bracket commas hcallee h _ =>
    exact ⟨[], _, _, rfl, rfl, by simp, stops_cons.2 (hp _ _), stops_cons.2 (hp _ _),
      .bracket commas hcallee h⟩
  | @other within pending pending' x hx h ih =>
    cases hop : p x with
    | true =>
      obtain ⟨ops, rest, rest', rfl, rfl, hops, hrest, hrest', h⟩ := ih
      exact ⟨x :: ops, rest, rest', rfl, rfl, List.forall_mem_cons.2 ⟨hop, hops⟩, hrest, hrest', h⟩
    | false =>
      exact ⟨[], _, _, rfl, rfl, by simp, stops_cons.2 hop, stops_cons.2 hop, .other hx h⟩

/-- Stacks that mirror each other have the same operators in front of their innermost brackets. -/
theorem Mirrors.exists_innermost {within : List Bool} {pending pending' : List Pending}
    (h : Mirrors within pending pending') :
    ∃ ops rest rest', pending = ops ++ rest ∧ pending' = ops ++ rest' ∧
      (∀ x ∈ ops, x.isBracket = false) ∧ Stops (fun x => !x.isBracket) rest ∧
      Mirrors within rest rest' := by
  obtain ⟨ops, rest, rest', rfl, rfl, hops, hstop, -, h⟩ :=
    h.exists_release (p := fun x => !x.isBracket) fun _ _ => rfl
  exact ⟨ops, rest, rest', rfl, rfl, by simpa using hops, hstop, h⟩

/-- A stack that mirrors one without brackets has none either. -/
theorem Mirrors.eq_of_isBracket {within : List Bool} {pending pending' : List Pending}
    (h : Mirrors within pending pending') (hb : ∀ x ∈ pending', x.isBracket = false) :
    pending = pending' := by
  induction h with
  | nil => rfl
  | angle _ _ _ => simpa [Pending.isBracket] using hb _ (List.mem_cons_self ..)
  | bracket _ _ _ _ => simpa [Pending.isBracket] using hb _ (List.mem_cons_self ..)
  | other _ _ ih => rw [ih fun x hx => hb x (by simp [hx])]

/-- Both conversions stand at the same place, over stacks that mirror each other. -/
inductive Beside (within : List Bool) : State → State → Prop where
  | ready (output output' : List Token) {pending pending' : List Pending} :
      Mirrors within pending pending' →
      Beside within (.ready output pending) (.ready output' pending')
  | filled (output output' : List Token) {pending pending' : List Pending} :
      Mirrors within pending pending' →
      Beside within (.filled output pending) (.filled output' pending')

/-- The opening of a call in degrees leaves its bracket, the factor and the second bracket. -/
theorem readAll_openInDegrees (output : List Token) (pending : List Pending) (f : MathFunction)
    (ts : List Token) :
    ∃ output', readAll (.ready output pending) (openInDegrees f ++ ts) =
      readAll (.ready output'
        (.bracket none 0 :: .operator .multiply :: .bracket (some f) 0 :: pending)) ts :=
  ⟨_, rfl⟩

/-- A call or a bracket is opened beside its conversion. -/
theorem Beside.call {within : List Bool} {s s' r' : State} (hs : Beside within s s')
    {f : MathFunction} {us : List Token}
    (h : readAll s' ((if f.takesAngle then openInDegrees f else [.function f, .opening]) ++ us) =
      .ok r') :
    ∃ s₁ s₁', readAll s [.function f, .opening] = .ok s₁ ∧
      Beside (f.takesAngle :: within) s₁ s₁' ∧ readAll s₁' us = .ok r' := by
  cases hs with
  | filled output output' hm => cases hf : f.takesAngle <;> rw [hf] at h <;> cases h
  | @ready output output' pending pending' hm =>
    refine ⟨.ready output (.bracket (some f) 0 :: pending), ?_⟩
    cases hf : f.takesAngle with
    | true =>
      obtain ⟨written, hopen⟩ := readAll_openInDegrees output' pending' f us
      rw [hf, if_pos rfl, hopen] at h
      exact ⟨_, rfl, .ready _ _ (.angle hf hm), h⟩
    | false =>
      rw [hf] at h
      exact ⟨_, rfl, .ready _ _ (.bracket 0 (by simpa using hf) hm), h⟩

/-- A closing bracket before an operand is refused. -/
theorem readAll_ready_closings (within : List Bool) (output : List Token) (pending : List Pending)
    (us : List Token) (r : State) :
    readAll (.ready output pending) (closings within ++ us) ≠ .ok r := by
  intro h
  obtain ⟨vs, hvs⟩ : ∃ vs, closings within ++ us = .closing :: vs := by
    rcases within with _ | ⟨_ | _, within⟩ <;> exact ⟨_, rfl⟩
  rw [hvs] at h
  obtain ⟨s, hstep, -⟩ := readAll_cons_eq_ok_iff.1 h
  obtain ⟨_, _, _, _, _, hready, -⟩ := exists_filled_of_step_closing hstep
  cases hready

/-- A closing bracket is read beside those that its conversion makes of it. -/
theorem Beside.closing {within : List Bool} {s s' r' : State} (hs : Beside within s s')
    {us : List Token} (h : readAll s' (closings within ++ us) = .ok r') :
    ∃ s₁ s₁', s.step .closing = .ok s₁ ∧ Beside within.tail s₁ s₁' ∧ readAll s₁' us = .ok r' := by
  cases hs with
  | ready output output' hm => exact absurd h (readAll_ready_closings _ _ _ _ _)
  | filled output output' hm =>
    obtain ⟨ops, rest, rest', rfl, rfl, hops, hstop, hbelow⟩ := hm.exists_innermost
    cases hbelow with
    | nil =>
      obtain ⟨s₁, hstep, -⟩ := readAll_cons_eq_ok_iff.1 h
      rw [List.append_nil, State.step_filled_closing_eq_error
        (State.innermost?_filled_eq_none hops output')] at hstep
      cases hstep
    | @angle within pending pending' f hf hbelow =>
      -- The second bracket closes before the factor, and the call behind it.
      have hmultiply : ∀ x ∈ [Pending.operator .multiply], x.isBracket = false := by
        simp [Pending.isBracket]
      have harity := (MathFunction.arity_of_takesAngle hf).symm
      have hinner := State.step_filled_closing_bracket output' hops 0
        (.operator .multiply :: .bracket (some f) 0 :: pending')
      have houter := State.step_filled_closing_call (released ops output') hmultiply f 0 pending'
      rw [if_pos harity] at houter
      have hcall := State.step_filled_closing_call output hops f 0 pending
      rw [if_pos harity] at hcall
      have hrun := (readAll_cons_of_ok hinner (.closing :: us)).trans (readAll_cons_of_ok houter us)
      exact ⟨_, _, hcall, .filled _ _ hbelow, hrun.symm.trans h⟩
    | @bracket within pending pending' callee commas hcallee hbelow =>
      cases callee with
      | none =>
        have hstep := State.step_filled_closing_bracket output' hops commas pending'
        exact ⟨_, _, State.step_filled_closing_bracket output hops commas pending,
          .filled _ _ hbelow, (readAll_cons_of_ok hstep us).symm.trans h⟩
      | some f =>
        obtain ⟨s₁, hstep', h⟩ := readAll_cons_eq_ok_iff.1 h
        have hstep := State.step_filled_closing_call output hops f commas pending
        rw [State.step_filled_closing_call output' hops] at hstep'
        split at hstep'
        case isFalse => cases hstep'
        case isTrue hlen =>
          cases hstep'
          rw [if_pos hlen] at hstep
          exact ⟨_, _, hstep, .filled _ _ hbelow, h⟩
    | other hx _ => simp [stops_cons, hx] at hstop

/-- A comma is read beside itself: it is none of a call in degrees, whose bracket hides the call. -/
theorem Beside.comma {within : List Bool} {s s' s₁' : State} (hs : Beside within s s')
    (h : s'.step .comma = .ok s₁') : ∃ s₁, s.step .comma = .ok s₁ ∧ Beside within s₁ s₁' := by
  cases hs with
  | ready output output' hm => cases Step.of_step_ready h with
    | operand ht => rcases ht with ⟨v, hv⟩ | hv | hv <;> cases hv
  | filled output output' hm =>
    obtain ⟨ops, rest, rest', rfl, rfl, hops, hstop, hbelow⟩ := hm.exists_innermost
    cases hbelow with
    | nil =>
      have hnone := State.innermost?_filled_eq_none hops output'
      rw [List.append_nil, State.step_filled_comma_eq_error (by simp [hnone])] at h
      cases h
    | angle _ _ =>
      rw [State.step_filled_comma_eq_error (by simp [State.innermost?_filled hops])] at h
      cases h
    | @bracket within pending pending' callee commas hcallee hbelow =>
      cases callee with
      | none =>
        rw [State.step_filled_comma_eq_error (by simp [State.innermost?_filled hops])] at h
        cases h
      | some f =>
        rw [State.step_filled_comma output' hops] at h
        cases h
        exact ⟨_, State.step_filled_comma output hops f commas pending,
          .ready _ _ (.bracket _ hcallee hbelow)⟩
    | other hx _ => simp [stops_cons, hx] at hstop

/-- An operand or an operator is read beside itself. -/
theorem Beside.step {within : List Bool} {s s' s₁' : State} (hs : Beside within s s') {t : Token}
    (ho : t ≠ .opening) (hc : t ≠ .closing) (hf : ∀ f, t ≠ .function f)
    (h : s'.step t = .ok s₁') : ∃ s₁, s.step t = .ok s₁ ∧ Beside within s₁ s₁' := by
  by_cases hcomma : t = .comma
  · subst hcomma
    exact hs.comma h
  cases hs with
  | @ready output output' pending pending' hm =>
    generalize hs' : State.ready output' pending' = s' at h
    cases Step.of_step_ready (hs' ▸ h) with
    | operand ht =>
      rcases ht with ⟨v, rfl⟩ | rfl | rfl <;> exact ⟨_, rfl, .filled _ _ hm⟩
    | function f => exact absurd rfl (hf f)
    | bracket => exact absurd rfl ho
    | plus => exact ⟨_, rfl, .ready _ _ hm⟩
    | minus => exact ⟨_, rfl, .ready _ _ (.other rfl hm)⟩
  | @filled output output' pending pending' hm =>
    cases t with
    | operator op =>
      obtain ⟨ops, rest, rest', rfl, rfl, hops, hrest, hrest', hm⟩ :=
        hm.exists_release (p := Pending.precedes op) fun _ _ => rfl
      rw [State.step_filled_operator output' hops hrest'] at h
      cases h
      exact ⟨_, State.step_filled_operator output hops hrest, .ready _ _ (.other rfl hm)⟩
    | comma => exact absurd rfl hcomma
    | closing => exact absurd rfl hc
    | _ => cases h

/-- A run over converted tokens has one over the tokens beside it. -/
theorem Beside.readAll {within : List Bool} {ts : List Token} {s s' r' : State}
    (hs : Beside within s s') (h : readAll s' (convertWithin within ts) = .ok r')
    (hr : r'.awaiting = none) :
    ∃ r within', readAll s ts = .ok r ∧ Beside within' r r' := by
  fun_induction Token.withinAfter within ts generalizing s s' with
  | case1 within f ts ih =>
    rw [convertWithin_call] at h
    obtain ⟨s₁, s₁', hread, hs, h⟩ := hs.call h
    obtain ⟨r, within', hrest, hr⟩ := ih hs h
    exact ⟨r, within', (readAll_append_of_ok hread ts).trans hrest, hr⟩
  | case2 within ts ih =>
    rw [convertWithin_opening] at h
    cases hs with
    | filled output output' hm => cases h
    | ready output output' hm =>
      have hnone (f : MathFunction) (hf : none = some f) : f.takesAngle = false := by
        cases hf
      rw [readAll_cons_of_ok (State.step_ready_opening output' _)] at h
      obtain ⟨r, within', hrest, hr⟩ := ih (.ready output output' (.bracket 0 hnone hm)) h
      exact ⟨r, within', (readAll_cons_of_ok (State.step_ready_opening _ _) ts).trans hrest, hr⟩
  | case3 within ts ih =>
    rw [convertWithin_closing] at h
    obtain ⟨s₁, s₁', hstep, hs, h⟩ := hs.closing h
    obtain ⟨r, within', hrest, hr⟩ := ih hs h
    exact ⟨r, within', (readAll_cons_of_ok hstep ts).trans hrest, hr⟩
  | case4 within t ts hcall ho hc ih =>
    rw [(convertWithin_cons within ho hc (Token.noCallee_of_ne hcall)).1] at h
    obtain ⟨s₁', hstep', hread⟩ := readAll_cons_eq_ok_iff.1 h
    by_cases hf : ∃ f, t = .function f
    · -- No bracket follows the name, so neither run goes on behind it.
      obtain ⟨f, rfl⟩ := hf
      have hhead := Token.head?_convertWithin within ts
      generalize convertWithin within ts = us at hread hhead
      cases step_eq_ok_iff.1 hstep' with
      | operand hf => rcases hf with ⟨v, hv⟩ | hv | hv <;> cases hv
      | function f output pending =>
        cases us with
        | nil =>
          cases hread
          cases hr
        | cons u us =>
          obtain ⟨s₂', hopen, -⟩ := readAll_cons_eq_ok_iff.1 hread
          cases step_eq_ok_iff.1 hopen with
          | call =>
            obtain ⟨vs, rfl⟩ := List.head?_eq_some_iff.1 hhead.symm
            exact absurd rfl (hcall f vs rfl)
    · obtain ⟨s₁, hstep, hs⟩ := hs.step ho hc (fun f hft => hf ⟨f, hft⟩) hstep'
      obtain ⟨r, within', hrest, hr⟩ := ih hs hread
      exact ⟨r, within', (readAll_cons_of_ok hstep ts).trans hrest, hr⟩
  | case5 within =>
    rw [convertWithin_nil] at h
    cases h
    exact ⟨s, within, rfl, hs⟩

/-- Converted tokens are accepted only where the tokens are. -/
theorem exists_ofInfix_of_convertWithin {ts listing : List Token}
    (h : ofInfix (convertWithin [] ts) = .ok listing) : ∃ listing', ofInfix ts = .ok listing' := by
  obtain ⟨output', ops, hread', hops, -⟩ := ofInfix_eq_ok_iff_readAll.1 h
  have hstart : Beside [] {} {} := .ready [] [] .nil
  obtain ⟨r, within, hread, hr⟩ := hstart.readAll hread' rfl
  generalize hr' : State.filled output' ops = r' at hr
  cases hr with
  | ready => cases hr'
  | @filled output output' pending pending' hm =>
    cases hr'
    obtain rfl := hm.eq_of_isBracket hops
    exact ⟨_, ofInfix_eq_ok_iff_readAll.2 ⟨output, pending, hread, hops, rfl⟩⟩

end Postfix

/-- Converted tokens have the converted tree. -/
theorem Expr.ofInfix_convertWithin_eq_ok_iff {ts : List Token} {e' : Expr} :
    Expr.ofInfix (Token.convertWithin [] ts) = .ok e' ↔
      ∃ e, Expr.ofInfix ts = .ok e ∧ e' = e.inDegrees := by
  have hforth {e : Expr} (h : Expr.ofInfix ts = .ok e) :
      Expr.ofInfix (Token.convertWithin [] ts) = .ok e.inDegrees :=
    Expr.ofInfix_eq_ok_iff.2 (Expr.ofInfix_eq_ok_iff.1 h).inDegrees
  constructor
  · intro h
    obtain ⟨listing', h'⟩ :=
      Postfix.exists_ofInfix_of_convertWithin (Expr.ofInfix_eq_ok_iff_listing.1 h).1
    obtain ⟨e, hderives, -⟩ := Postfix.derives_of_ofInfix h'
    have he : Expr.ofInfix ts = .ok e := Expr.ofInfix_eq_ok_iff.2 hderives
    exact ⟨e, he, Except.ok.inj (h.symm.trans (hforth he))⟩
  · rintro ⟨e, he, rfl⟩
    exact hforth he

/--
Converted to degrees, tokens are accepted exactly where they were before, and their tree is the one
before with the argument of every sine, cosine and tangent times π / 180, at every depth.
-/
theorem Expr.ofInfix_convertAngles_degrees (ts : List Token) :
    ((∃ listing, Postfix.ofInfix (Token.convertAngles .degrees ts) = .ok listing) ↔
        ∃ listing, Postfix.ofInfix ts = .ok listing) ∧
      ∀ e', Expr.ofInfix (Token.convertAngles .degrees ts) = .ok e' ↔
        ∃ e, Expr.ofInfix ts = .ok e ∧ e' = e.inDegrees := by
  refine ⟨⟨fun ⟨listing, h⟩ => Postfix.exists_ofInfix_of_convertWithin h, ?_⟩, fun e' =>
    Expr.ofInfix_convertWithin_eq_ok_iff⟩
  rintro ⟨listing, h⟩
  obtain ⟨e, he, -⟩ := Postfix.derives_of_ofInfix h
  exact ⟨_, Postfix.ofInfix_of_derives he.inDegrees⟩

end SciCalc
