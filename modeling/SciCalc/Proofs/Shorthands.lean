import SciCalc.Proofs.Dialects
import SciCalc.Proofs.Marks

/-!
# Marks as further atoms

Where marks are expanded, `n!`, `nPr` and `nCr` are further atoms of the grammar, and only with
literals as their operands. Expanded tokens are read back by looking at which of the calls in them
may have been marks. No part of the plain grammar ends inside of such a call, so whatever is derived
from the expanded tokens is derived from the tokens themselves, with a mark for an atom where there
was one. Every mark in accepted tokens turns out to have literals of its own.
-/

set_option autoImplicit false

namespace SciCalc

open Grammar (Derives Dialect Separates)

namespace Token

/-! ## Places in brackets -/

/-- Inside of a call no place is at depth zero. -/
theorem depthAfter_ne_zero_inside {f : MathFunction} {arguments us vs : List Token} {t : Token}
    (harguments : Matched arguments) (ht : t = closing ∨ Separates t)
    (h : enclosed (some f) arguments = us ++ t :: vs) (n : Nat) : depthAfter n us ≠ some 0 := by
  have hopens : t ≠ function f ∧ t ≠ opening := by
    rcases ht with rfl | rfl | ⟨op, rfl⟩ <;> simp
  have hcall : function f :: opening :: (arguments ++ [closing]) = us ++ t :: vs := h
  match us with
  | [] => exact absurd (List.cons.inj hcall).1.symm hopens.1
  | [_] => exact absurd (List.cons.inj (List.cons.inj hcall).2).1.symm hopens.2
  | _ :: _ :: us =>
    simp only [List.cons_append, List.cons.injEq] at hcall
    obtain ⟨rfl, rfl, hinside⟩ := hcall
    have hshorter : us.length ≤ arguments.length := by
      have := congrArg List.length hinside
      simp at this
      omega
    obtain ⟨rest, rfl⟩ : us <+: arguments :=
      List.prefix_of_prefix_length_le ⟨t :: vs, hinside.symm⟩ ⟨[closing], rfl⟩ hshorter
    rw [Matched, Token.depthAfter_append] at harguments
    obtain ⟨m, hm, -⟩ := Option.bind_eq_some_iff.1 harguments
    rw [depthAfter_cons_of_ne (by simp) (by simp), depthAfter, ← Nat.zero_add (n + 1),
      depthAfter_add hm]
    simp

/-- A closing bracket behind matching tokens has one place only. -/
theorem eq_of_append_closing {us vs us' vs' : List Token} (hus : Matched us) (hus' : Matched us')
    (h : us ++ closing :: vs = us' ++ closing :: vs') : us = us' ∧ vs = vs' := by
  have closed (us ts : List Token) (hus : Matched us) : ¬Matched (us ++ closing :: ts) := by
    rw [Matched, hus.depthAfter_append]
    simp [depthAfter]
  rcases List.append_eq_append_iff.1 h with ⟨between, rfl, hrest⟩ | ⟨between, rfl, hrest⟩
  · cases between with
    | nil => simpa using hrest
    | cons t between =>
      obtain ⟨rfl, -⟩ := List.cons.inj hrest
      exact absurd hus' (closed us between hus)
  · cases between with
    | nil => simpa using hrest.symm
    | cons t between =>
      obtain ⟨rfl, -⟩ := List.cons.inj hrest
      exact absurd hus (closed us' between hus')

/-! ## Calls that may have been marks -/

/-- The call of a use is derived with its tree. -/
theorem MarkUse.derives {d : Dialect} {short call : List Token} {e : Expr}
    (h : MarkUse short call e) : Derives d .atom call e := by
  have literal (v : Float) : Derives d .sum [number v] (.number v) :=
    .sumOfProduct (.productOfSigned (.signedOfPower (.powerOfAtom (.number v))))
  cases h with
  | factorial v =>
    have hlen : [([number v], Expr.number v)].length = MathFunction.factorial.arity := rfl
    exact Derives.call_of_list hlen (by simpa using literal v)
  | @between mark f hmark v w =>
    have hlen : [([number v], Expr.number v), ([number w], Expr.number w)].length = f.arity := by
      cases hmark <;> rfl
    exact Derives.call_of_list hlen (by simpa using ⟨literal v, literal w⟩)

/-- The first tokens are the second ones with some uses of marks written out as calls. -/
inductive Abbreviated : List Token → List Token → Prop where
  | nil : Abbreviated [] []
  | cons (t : Token) {us ts : List Token} : Abbreviated us ts → Abbreviated (t :: us) (t :: ts)
  | use {short call : List Token} {e : Expr} {us ts : List Token} : MarkUse short call e →
      Abbreviated us ts → Abbreviated (call ++ us) (short ++ ts)

namespace Abbreviated

/-- No use needs to be written out. -/
theorem refl (ts : List Token) : Abbreviated ts ts := by
  induction ts with
  | nil => exact .nil
  | cons t ts ih => exact .cons t ih

/-- Behind tokens in which no use of a mark begins. -/
theorem of_append {ts us vs : List Token} (hfree : FreeAlong ts us)
    (h : Abbreviated vs (ts ++ us)) : ∃ ws, vs = ts ++ ws ∧ Abbreviated ws us := by
  induction ts generalizing vs with
  | nil => exact ⟨vs, rfl, h⟩
  | cons t ts ih =>
    generalize hall : t :: ts ++ us = all at h
    cases h with
    | nil => cases hall
    | cons t' h =>
      obtain ⟨rfl, rfl⟩ := List.cons.inj hall
      obtain ⟨ws, rfl, hws⟩ := ih hfree.2 h
      exact ⟨ws, rfl, hws⟩
    | @use short call e ws rest huse h =>
      exact absurd ⟨rest, hall.symm⟩ (hfree.1 short call e huse)

/-- A pass that writes calls writes out uses of marks. -/
theorem of_pass {pass : List Token → List Token} (hpass : WritesCalls pass) {us ts : List Token}
    (h : Abbreviated us (pass ts)) : Abbreviated us ts := by
  -- A use takes several tokens at once, so the induction is on how many are left.
  induction hlen : ts.length using Nat.strongRecOn generalizing us ts with
  | ind n ih =>
    have shorter {short call rest : List Token} {e : Expr} (huse : MarkUse short call e)
        (hts : ts = short ++ rest) : rest.length < n := by
      rw [← hlen, hts]
      exact huse.length_lt rest
    cases ts with
    | nil => rwa [hpass.nil] at h
    | cons t ts =>
      rcases hpass.cons t ts with hkeep | ⟨short, call, e, rest, huse, hts, hwrite⟩
      · generalize hall : pass (t :: ts) = all at h
        cases h with
        | nil => cases hkeep.symm.trans hall
        | cons t' h =>
          obtain ⟨rfl, rfl⟩ := List.cons.inj (hkeep.symm.trans hall)
          exact .cons t (ih ts.length (by simp [← hlen]) h rfl)
        | use huse h =>
          -- A use that the pass left in front is left whole.
          obtain ⟨rest, hts, rfl⟩ := hpass.exists_of_eq_append huse.function_not_mem hall
          rw [hts]
          exact .use huse (ih rest.length (shorter huse hts) h rfl)
      · rw [hwrite] at h
        obtain ⟨ws, rfl, hws⟩ := of_append (huse.freeAlong _) h
        rw [hts]
        exact .use huse (ih rest.length (shorter huse hts) hws rfl)

/-- Expanded tokens are the tokens with uses of marks written out. -/
theorem of_expandMarks (ts : List Token) : Abbreviated (expandMarks ts) ts :=
  of_pass writesCalls_expandFactorials <| of_pass (writesCalls_expandBetween .permutations) <|
    of_pass (writesCalls_expandBetween .combinations) <| refl _

/-- Behind a token that is no name, written out tokens begin with that token. -/
theorem cons_inv {t : Token} (ht : ∀ f, t ≠ function f) {us ts : List Token}
    (h : Abbreviated (t :: us) ts) : ∃ vs, ts = t :: vs ∧ Abbreviated us vs := by
  generalize hall : t :: us = all at h
  cases h with
  | nil => cases hall
  | cons t' h =>
    obtain ⟨rfl, rfl⟩ := List.cons.inj hall
    exact ⟨_, rfl, h⟩
  | use huse h =>
    obtain ⟨f, arguments, rfl, -⟩ := huse.exists_enclosed
    exact absurd (List.cons.inj hall).1 (ht f)

/-- What is written out to nothing is nothing. -/
theorem eq_nil {ts : List Token} (h : Abbreviated [] ts) : ts = [] := by
  generalize hall : [] = all at h
  cases h with
  | nil => rfl
  | cons t h => cases hall
  | use huse h =>
    obtain ⟨f, arguments, rfl, -⟩ := huse.exists_enclosed
    cases hall

/--
Written out tokens come apart at a token that ends what stands before it: where the brackets match
up to there, the token is none of a call that stands for a mark.
-/
theorem of_append_cons {n : Nat} {us : List Token} {t : Token} {vs ts : List Token}
    (ht : t = closing ∨ Separates t) (hus : depthAfter n us = some 0)
    (h : Abbreviated (us ++ t :: vs) ts) :
    ∃ ts₁ ts₂, ts = ts₁ ++ t :: ts₂ ∧ Abbreviated us ts₁ ∧ Abbreviated vs ts₂ := by
  -- Of what stands before the token, `n` says which brackets are open where the rest of it begins.
  generalize hall : us ++ t :: vs = all at h
  induction h generalizing n us with
  | nil => simp at hall
  | @cons t' us' ts h ih =>
    cases us with
    | nil =>
      obtain ⟨rfl, rfl⟩ := List.cons.inj hall
      exact ⟨[], ts, rfl, .nil, h⟩
    | cons u us =>
      obtain ⟨rfl, hbehind⟩ := List.cons.inj hall
      obtain ⟨m, hm⟩ : ∃ m, depthAfter m us = some 0 := by
        rw [← List.singleton_append, Token.depthAfter_append] at hus
        obtain ⟨m, -, hm⟩ := Option.bind_eq_some_iff.1 hus
        exact ⟨m, hm⟩
      obtain ⟨ts₁, ts₂, rfl, h₁, h₂⟩ := ih hm hbehind
      exact ⟨u :: ts₁, ts₂, rfl, .cons u h₁, h₂⟩
  | @use short call e us' ts huse h ih =>
    obtain ⟨f, arguments, rfl, harguments⟩ := huse.exists_enclosed
    rcases List.append_eq_append_iff.1 hall with ⟨inside, hcall, hinside⟩ | ⟨behind, rfl, hbehind⟩
    · cases inside with
      | nil =>
        -- The call ends in front of the token.
        rw [List.append_nil] at hcall
        subst hcall
        obtain ⟨ts₁, ts₂, rfl, h₁, h₂⟩ := @ih 0 [] rfl hinside
        have hwhole := Abbreviated.use huse h₁
        rw [List.append_nil] at hwhole
        exact ⟨short ++ ts₁, ts₂, by simp, hwhole, h₂⟩
      | cons t' inside =>
        obtain ⟨rfl, -⟩ := List.cons.inj hinside
        exact absurd hus (depthAfter_ne_zero_inside harguments ht hcall n)
    · rw [(harguments.enclosed (some f)).depthAfter_append] at hus
      obtain ⟨ts₁, ts₂, rfl, h₁, h₂⟩ := ih hus hbehind.symm
      exact ⟨short ++ ts₁, ts₂, by simp, .use huse h₁, h₂⟩

end Abbreviated

end Token

/-! ## The dialect with marks -/

namespace Grammar

open Token

/-- Further atoms are the marks on literals: `n!`, `nPr` and `nCr`. -/
def Dialect.marked : Dialect where
  leaf ts e := ∃ call, MarkUse ts call e
  joins _ _ := False

/-- A use of a mark on its own is written out as its call. -/
theorem expandMarks_use {short call : List Token} {e : Expr} (h : MarkUse short call e) :
    expandMarks short = call := by
  cases h with
  | factorial v => rfl
  | between hmark v w => cases hmark <;> rfl

/-- Expanding marks writes out the marked dialect. -/
theorem writesOut_expandMarks : WritesOut .marked expandMarks where
  nil := rfl
  operand := by
    rintro t (⟨v, rfl⟩ | rfl | rfl) <;> rfl
  separated ts t us ht := by
    refine expandMarks_append_cons ?_ ts us
    rcases ht with rfl | ⟨op, rfl⟩ <;> simp [Inert, isNumber]
  opens t ts ht := by
    refine expandMarks_cons ?_ ts
    rcases ht with rfl | ⟨f, rfl⟩ <;> rfl
  closes ts := expandMarks_append_cons inert_closing ts []
  leaf := by
    rintro ts e ⟨call, huse⟩
    rw [expandMarks_use huse]
    exact huse.derives
  joined _ _ _ _ hjoins _ _ := hjoins.elim

/-- The tree of an atom is unique. -/
theorem Derives.eq_of_atom {ts : List Token} {e e' : Expr} (h : Derives .plain .atom ts e)
    (h' : Derives .plain .atom ts e') : e = e' := by
  have tree {e : Expr} (h : Derives .plain .atom ts e) : Expr.ofInfix ts = .ok e :=
    Expr.ofInfix_eq_ok_iff.2 (.sumOfProduct (.productOfSigned (.signedOfPower (.powerOfAtom h))))
  exact Except.ok.inj ((tree h).symm.trans (tree h'))

/-- With its marks written out the marked dialect is read back. -/
theorem readsBack_abbreviated : ReadsBack .marked Abbreviated where
  nil _ h := h.eq_nil
  operand t ts ht h := by
    have hname : ∀ f, t ≠ function f := by
      rintro f rfl
      rcases ht with ⟨v, h⟩ | h | h <;> cases h
    obtain ⟨vs, rfl, hvs⟩ := h.cons_inv hname
    rw [hvs.eq_nil]
  separated us t vs ts ht hus h := .inl (h.of_append_cons (.inr ht) hus)
  bracketed us ts hus h := by
    obtain ⟨ts, rfl, hinside⟩ := h.cons_inv (by simp)
    obtain ⟨ts₁, ts₂, rfl, h₁, h₂⟩ := hinside.of_append_cons (.inl rfl) hus
    rw [h₂.eq_nil]
    exact ⟨ts₁, rfl, h₁⟩
  named f us ts hus h := by
    generalize hall : function f :: opening :: (us ++ [closing]) = all at h
    cases h with
    | nil => cases hall
    | cons t h =>
      obtain ⟨rfl, rfl⟩ := List.cons.inj hall
      exact .inl ⟨_, rfl, h⟩
    | @use short call tree vs ts huse h =>
      -- The call that is closed first is the one that the mark stands for.
      obtain ⟨g, arguments, rfl, harguments⟩ := huse.exists_enclosed
      have hsame : function f :: opening :: (us ++ [closing]) =
          function g :: opening :: (arguments ++ [closing] ++ vs) := hall
      simp only [List.append_assoc, List.singleton_append, List.cons.injEq, true_and] at hsame
      obtain ⟨-, rfl⟩ := eq_of_append_closing hus harguments hsame.2
      rw [h.eq_nil, List.append_nil, List.append_nil]
      exact .inr fun e he => ⟨_, he.eq_of_atom huse.derives ▸ huse⟩

end Grammar

namespace Token

/-! ## Marks without literals -/

/--
The mark has literals of its own: one before it that does not belong to the mark before that one,
and behind a mark that stands between literals another one.
-/
def HasLiterals (before : List Token) (mark : Token) (after : List Token) : Prop :=
  ∃ rest v, before = rest ++ [number v] ∧
    (∀ t ∈ rest.getLast?, ∀ f, ¬StandsBetween t f) ∧
    (mark ≠ factorialMark → ∃ w behind, after = number w :: behind)

/-- What stands further in front leaves a mark its literals, if it does not end in a mark. -/
theorem HasLiterals.append {front before after : List Token} {mark : Token}
    (hfront : ∀ t ∈ front.getLast?, ∀ f, ¬StandsBetween t f) (h : HasLiterals before mark after) :
    HasLiterals (front ++ before) mark after := by
  obtain ⟨rest, v, rfl, hrest, hbehind⟩ := h
  refine ⟨front ++ rest, v, (List.append_assoc ..).symm, fun t ht => ?_, hbehind⟩
  rw [List.getLast?_append] at ht
  cases hlast : rest.getLast? with
  | none => exact hfront t (by simpa [hlast] using ht)
  | some t' => exact hrest t (by simpa [hlast] using ht)

/-- A use of a mark does not end in a mark between literals. -/
theorem MarkUse.not_standsBetween_of_getLast? {short call : List Token} {e : Expr}
    (h : MarkUse short call e) : ∀ t ∈ short.getLast?, ∀ f, ¬StandsBetween t f := by
  cases h with
  | factorial v => rintro t ⟨⟩ f hf; cases hf
  | between hmark v w => rintro t ⟨⟩ f hf; cases hf

/-- A mark that stands in a use or behind it is the mark of the use or stands behind it. -/
theorem MarkUse.hasLiterals_or_exists {short call : List Token} {e : Expr}
    (h : MarkUse short call e) {ts before after : List Token} {mark : Token} (hmark : mark.IsMark)
    (hts : short ++ ts = before ++ mark :: after) :
    HasLiterals before mark after ∨
      ∃ behind, before = short ++ behind ∧ ts = behind ++ mark :: after := by
  have hnumber (v : Float) : mark ≠ number v := by
    rintro rfl
    exact hmark.not_plain trivial
  cases h with
  | factorial v =>
    match before with
    | [] => exact absurd (List.cons.inj hts).1.symm (hnumber v)
    | [_] =>
      simp only [List.cons_append, List.nil_append, List.cons.injEq] at hts
      obtain ⟨rfl, rfl, rfl⟩ := hts
      exact .inl ⟨[], v, rfl, by simp, fun h => absurd rfl h⟩
    | _ :: _ :: behind =>
      simp only [List.cons_append, List.nil_append, List.cons.injEq] at hts
      obtain ⟨rfl, rfl, hbehind⟩ := hts
      exact .inr ⟨behind, rfl, hbehind⟩
  | between hbetween v w =>
    match before with
    | [] => exact absurd (List.cons.inj hts).1.symm (hnumber v)
    | [_] =>
      simp only [List.cons_append, List.nil_append, List.cons.injEq] at hts
      obtain ⟨rfl, rfl, rfl⟩ := hts
      exact .inl ⟨[], v, rfl, by simp, fun _ => ⟨w, ts, rfl⟩⟩
    | [_, _] =>
      simp only [List.cons_append, List.nil_append, List.cons.injEq] at hts
      exact absurd hts.2.2.1.symm (hnumber w)
    | _ :: _ :: _ :: behind =>
      simp only [List.cons_append, List.nil_append, List.cons.injEq] at hts
      obtain ⟨rfl, rfl, rfl, hbehind⟩ := hts
      exact .inr ⟨behind, rfl, hbehind⟩

/-- Where the written out tokens hold no marks, every mark had literals of its own. -/
theorem Abbreviated.hasLiterals {us ts : List Token} (h : Abbreviated us ts)
    (hplain : ∀ t ∈ us, t.Plain) {before after : List Token} {mark : Token} (hmark : mark.IsMark)
    (hts : ts = before ++ mark :: after) : HasLiterals before mark after := by
  induction h generalizing before with
  | nil => simp at hts
  | @cons t us ts h ih =>
    obtain ⟨ht, hus⟩ := List.forall_mem_cons.1 hplain
    cases before with
    | nil =>
      obtain ⟨rfl, -⟩ := List.cons.inj hts
      exact absurd ht hmark.not_plain
    | cons b before =>
      obtain ⟨rfl, hbehind⟩ := List.cons.inj hts
      have hfront : ∀ t' ∈ [t].getLast?, ∀ f, ¬StandsBetween t' f := by
        rintro t' ⟨⟩ f hf
        exact IsMark.not_plain (.inr ⟨f, hf⟩) ht
      exact (ih hus hbehind).append hfront
  | @use short call e us ts huse h ih =>
    have hus : ∀ t ∈ us, t.Plain := fun t ht => hplain t (List.mem_append_right _ ht)
    rcases huse.hasLiterals_or_exists hmark hts with hown | ⟨behind, rfl, hbehind⟩
    · exact hown
    · exact (ih hus hbehind).append huse.not_standsBetween_of_getLast?

end Token

/--
Expanding the marks gives tokens exactly the trees that they have with marks on literals as further
atoms. Where a mark has no literals of its own nothing is read, and a second round changes nothing.
-/
theorem ofInfix_expandMarks_iff_marked (ts : List Token) :
    (∀ e, Expr.ofInfix (Token.expandMarks ts) = .ok e ↔ Derives .marked .sum ts e) ∧
      (∀ before mark after, ts = before ++ mark :: after → Token.IsMark mark →
        ¬Token.HasLiterals before mark after →
          ∃ fault, Expr.ofInfix (Token.expandMarks ts) = .error fault) ∧
      Token.expandMarks (Token.expandMarks ts) = Token.expandMarks ts := by
  have hwritten : ∀ us, Token.Abbreviated (Token.expandMarks us) us :=
    Token.Abbreviated.of_expandMarks
  refine ⟨fun e => Grammar.writesOut_expandMarks.ofInfix_eq_ok_iff
    Grammar.readsBack_abbreviated hwritten, ?_, Token.expandMarks_expandMarks ts⟩
  intro before mark after hts hmark hliterals
  cases hread : Expr.ofInfix (Token.expandMarks ts) with
  | error fault => exact ⟨fault, rfl⟩
  | ok e =>
    have hplain : ∀ t ∈ Token.expandMarks ts, t.Plain := (Expr.toPlain_of_ofInfix hread).1
    exact absurd ((hwritten ts).hasLiterals hplain hmark hts) hliterals

/-- A factorial may stand as an exponent; a permutation of a permutation is refused. -/
theorem ofInfix_expandMarks_iff_marked_chained :
    Derives .marked .sum [.number 2, .operator .raise, .number 5, .factorialMark]
        (.binary .raise (.number 2) (.call .factorial [.number 5])) ∧
      ∃ fault, Expr.ofInfix (Token.expandMarks
        [.number 5, .permutationMark, .number 2, .permutationMark, .number 1]) = .error fault := by
  obtain ⟨htree, -, -⟩ :=
    ofInfix_expandMarks_iff_marked [.number 2, .operator .raise, .number 5, .factorialMark]
  obtain ⟨-, hrefused, -⟩ := ofInfix_expandMarks_iff_marked
    [.number 5, .permutationMark, .number 2, .permutationMark, .number 1]
  have hliterals : ¬Token.HasLiterals [.number 5, .permutationMark, .number 2] .permutationMark
      [.number 1] := by
    rintro ⟨rest, v, hbefore, hlast, -⟩
    have hsplit : [Token.number 5, Token.permutationMark] ++ [Token.number 2] =
        rest ++ [Token.number v] := hbefore
    obtain ⟨rfl, -⟩ := List.append_inj' hsplit rfl
    exact hlast _ rfl _ .permutations
  exact ⟨(htree _).1 rfl,
    hrefused [.number 5, .permutationMark, .number 2] _ _ rfl (.inr ⟨_, .permutations⟩) hliterals⟩

end SciCalc
