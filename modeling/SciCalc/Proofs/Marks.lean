import SciCalc.Proofs.Workings

/-!
# Marks on literals

A mark on literals is short for a call: `n!`, `nPr` and `nCr`. Three passes write these calls, one
after the other. Each of them goes through the tokens from left to right and puts a call where a use
of its mark stands; it leaves no such use, and since a call begins with a name and holds no mark it
brings no use of another mark about. So nothing is left for a second round.
-/

set_option autoImplicit false

namespace SciCalc

namespace Token

/-! ## Uses of marks -/

/-- A mark between two literals and the function that it stands for. -/
inductive StandsBetween : Token → MathFunction → Prop where
  | permutations : StandsBetween permutationMark .permutations
  | combinations : StandsBetween combinationMark .combinations

/-- A use of a mark on literals, the call that it is short for, and the tree of that. -/
inductive MarkUse : List Token → List Token → Expr → Prop where
  /-- `n!` -/
  | factorial (v : Float) :
      MarkUse [number v, factorialMark] (callOne .factorial v) (.call .factorial [.number v])
  /-- `nPr` and `nCr` -/
  | between {mark : Token} {f : MathFunction} (h : StandsBetween mark f) (v w : Float) :
      MarkUse [number v, mark, number w] (callTwo f v w) (.call f [.number v, .number w])

/-- A use of a mark holds no name. -/
theorem MarkUse.function_not_mem {short call : List Token} {e : Expr} (h : MarkUse short call e)
    (f : MathFunction) : function f ∉ short := by
  cases h with
  | factorial v => simp
  | between hmark v w => cases hmark <;> simp

/-- The call of a use is a call of literals. -/
theorem MarkUse.exists_enclosed {short call : List Token} {e : Expr} (h : MarkUse short call e) :
    ∃ f arguments, call = enclosed (some f) arguments ∧ Matched arguments := by
  cases h with
  | factorial v => exact ⟨.factorial, [number v], rfl, rfl⟩
  | @between mark f _ v w => exact ⟨f, [number v, comma, number w], rfl, rfl⟩

/-- Behind a use of a mark fewer tokens are left. -/
theorem MarkUse.length_lt {short call : List Token} {e : Expr} (h : MarkUse short call e)
    (rest : List Token) : rest.length < (short ++ rest).length := by
  cases h <;> simp only [List.cons_append, List.nil_append, List.length_cons] <;> omega

/-- The token is a mark. -/
def IsMark (t : Token) : Prop := t = factorialMark ∨ ∃ f, StandsBetween t f

/-- A comma is no mark. -/
theorem not_isMark_comma : ¬comma.IsMark := by
  rintro (h | ⟨f, h⟩) <;> cases h

/-- A closing bracket is no mark. -/
theorem not_isMark_closing : ¬closing.IsMark := by
  rintro (h | ⟨f, h⟩) <;> cases h

/-- A mark is no token of the plain language. -/
theorem IsMark.not_plain {t : Token} (h : t.IsMark) : ¬t.Plain := by
  rintro ht
  rcases h with rfl | ⟨f, h⟩
  · exact ht
  · cases h <;> exact ht

/-- No use of a mark begins with the first token. -/
def Free (ts : List Token) : Prop :=
  ∀ (short call : List Token) (e : Expr), MarkUse short call e → ¬short <+: ts

/-- No use of a mark begins with a token that is no literal. -/
theorem free_cons {t : Token} (ht : t.isNumber = false) (ts : List Token) : Free (t :: ts) := by
  intro short call e huse hprefix
  cases huse with
  | factorial v =>
    obtain ⟨rfl, -⟩ := List.cons_prefix_cons.1 hprefix
    cases ht
  | between h v w =>
    obtain ⟨rfl, -⟩ := List.cons_prefix_cons.1 hprefix
    cases ht

/-- No use of a mark begins before a token that is no mark. -/
theorem free_cons_cons (t : Token) {b : Token} (hb : ¬b.IsMark) (ts : List Token) :
    Free (t :: b :: ts) := by
  intro short call e huse hprefix
  cases huse with
  | factorial v =>
    obtain ⟨-, hrest⟩ := List.cons_prefix_cons.1 hprefix
    exact hb (.inl (List.cons_prefix_cons.1 hrest).1.symm)
  | @between mark f h v w =>
    obtain ⟨-, hrest⟩ := List.cons_prefix_cons.1 hprefix
    exact hb (.inr ⟨f, (List.cons_prefix_cons.1 hrest).1 ▸ h⟩)

/-- No use of a mark begins in the first tokens when the others follow. -/
def FreeAlong : List Token → List Token → Prop
  | [], _ => True
  | t :: ts, us => Free (t :: (ts ++ us)) ∧ FreeAlong ts us

/-- No use of a mark begins in a call of literals. -/
theorem MarkUse.freeAlong {short call : List Token} {e : Expr} (h : MarkUse short call e)
    (us : List Token) : FreeAlong call us := by
  cases h with
  | factorial v =>
    exact ⟨free_cons rfl _, free_cons rfl _, free_cons_cons _ not_isMark_closing _,
      free_cons rfl _, trivial⟩
  | between _ v w =>
    exact ⟨free_cons rfl _, free_cons rfl _, free_cons_cons _ not_isMark_comma _,
      free_cons rfl _, free_cons_cons _ not_isMark_closing _, free_cons rfl _, trivial⟩

/-- A use of a mark that stands in the tokens stands behind those in which none begins. -/
theorem MarkUse.infix_of_freeAlong {short call : List Token} {e : Expr}
    (huse : MarkUse short call e) {ts us : List Token} (hfree : FreeAlong ts us)
    (h : short <:+: ts ++ us) : short <:+: us := by
  induction ts with
  | nil => exact h
  | cons t ts ih =>
    rcases List.infix_cons_iff.1 h with hprefix | hstands
    · exact absurd hprefix (hfree.1 short call e huse)
    · exact ih hfree.2 hstands

/-- The tokens hold no use of a mark. -/
def Expanded (ts : List Token) : Prop :=
  ∀ (short call : List Token) (e : Expr), MarkUse short call e → ¬short <:+: ts

/-- No use of a mark begins anywhere in tokens that hold none. -/
theorem Expanded.freeAlong {ts : List Token} (h : Expanded ts) : FreeAlong ts [] := by
  induction ts with
  | nil => trivial
  | cons t ts ih =>
    refine ⟨fun short call e huse hprefix => ?_, ih fun short call e huse hstands => ?_⟩
    · rw [List.append_nil] at hprefix
      exact h short call e huse hprefix.isInfix
    · exact h short call e huse (List.infix_cons hstands)

/-! ## Passes that write calls -/

/-- The pass goes from left to right, leaving tokens or putting the call for a use of a mark. -/
structure WritesCalls (pass : List Token → List Token) : Prop where
  nil : pass [] = []
  cons : ∀ (t : Token) (ts : List Token), pass (t :: ts) = t :: pass ts ∨
    ∃ short call e rest, MarkUse short call e ∧ t :: ts = short ++ rest ∧
      pass (t :: ts) = call ++ pass rest

/-- Writing factorials out puts calls for their marks. -/
theorem writesCalls_expandFactorials : WritesCalls expandFactorials where
  nil := rfl
  cons t ts := by
    by_cases hmark : t.isNumber = true ∧ ts.head? = some factorialMark
    · obtain ⟨hnumber, hhead⟩ := hmark
      obtain ⟨us, rfl⟩ := List.head?_eq_some_iff.1 hhead
      cases t with
      | number v => exact .inr ⟨_, _, _, us, .factorial v, rfl, rfl⟩
      | _ => cases hnumber
    · exact .inl (expandFactorials_cons fun hnumber hhead => hmark ⟨hnumber, hhead⟩)

/-- Writing out a mark between literals puts calls for it. -/
theorem writesCalls_expandBetween {mark : Token} {f : MathFunction} (h : StandsBetween mark f) :
    WritesCalls (expandBetween mark f) where
  nil := rfl
  cons t ts := by
    by_cases hmark : t.isNumber = true ∧ ∃ w us, ts = mark :: number w :: us
    · obtain ⟨hnumber, w, us, rfl⟩ := hmark
      cases t with
      | number v => exact .inr ⟨_, _, _, us, .between h v w, rfl, by rw [expandBetween, if_pos rfl]⟩
      | _ => cases hnumber
    · exact .inl (expandBetween_cons f fun hnumber w us hts => hmark ⟨hnumber, w, us, hts⟩)

namespace WritesCalls

variable {pass : List Token → List Token} (h : WritesCalls pass)

include h

/-- A token stays where no use of a mark begins with it. -/
theorem keep {t : Token} {ts : List Token} (hfree : Free (t :: ts)) :
    pass (t :: ts) = t :: pass ts := by
  rcases h.cons t ts with hkeep | ⟨short, call, e, rest, huse, hts, -⟩
  · exact hkeep
  · exact absurd ⟨rest, hts.symm⟩ (hfree short call e huse)

/-- Tokens stay where no use of a mark begins in them. -/
theorem append {ts us : List Token} (hfree : FreeAlong ts us) :
    pass (ts ++ us) = ts ++ pass us := by
  induction ts with
  | nil => rfl
  | cons t ts ih => rw [List.cons_append, h.keep hfree.1, ih hfree.2, List.cons_append]

/-- Tokens without a use of a mark stay as they are. -/
theorem eq_self {ts : List Token} (hts : Expanded ts) : pass ts = ts := by
  simpa [h.nil] using h.append hts.freeAlong

/-- Tokens without a name that the pass leaves in front stood in front before. -/
theorem exists_of_eq_append {us vs ts : List Token} (hus : ∀ f, function f ∉ us)
    (hpass : pass ts = us ++ vs) : ∃ rest, ts = us ++ rest ∧ pass rest = vs := by
  induction us generalizing ts with
  | nil => exact ⟨ts, rfl, hpass⟩
  | cons u us ih =>
    cases ts with
    | nil =>
      rw [h.nil] at hpass
      cases hpass
    | cons t ts =>
      rcases h.cons t ts with hkeep | ⟨short, call, e, rest, huse, -, hwrite⟩
      · obtain ⟨rfl, hbehind⟩ := List.cons.inj (hkeep.symm.trans hpass)
        obtain ⟨rest, rfl, hrest⟩ := ih (fun f hf => hus f (by simp [hf])) hbehind
        exact ⟨rest, rfl, hrest⟩
      · obtain ⟨f, arguments, rfl, -⟩ := huse.exists_enclosed
        obtain ⟨rfl, -⟩ := List.cons.inj (hwrite.symm.trans hpass)
        exact absurd (List.mem_cons_self ..) (hus f)

/-- A use of a mark that the pass leaves was there before, and the pass went over it. -/
theorem exists_kept {short call : List Token} {e : Expr} (huse : MarkUse short call e)
    {ts : List Token} (hstands : short <:+: pass ts) :
    ∃ t us, t :: us <:+ ts ∧ short <+: t :: us ∧ pass (t :: us) = t :: pass us := by
  induction hlen : ts.length using Nat.strongRecOn generalizing ts with
  | ind n ih =>
    cases ts with
    | nil =>
      rw [h.nil, List.infix_nil] at hstands
      subst hstands
      cases huse
    | cons t ts =>
      rcases h.cons t ts with hkeep | ⟨short', call', e', rest, huse', hts, hwrite⟩
      · rw [hkeep] at hstands
        rcases List.infix_cons_iff.1 hstands with hprefix | hstands
        · obtain ⟨vs, hvs⟩ := hprefix
          obtain ⟨rest, hts, -⟩ :=
            h.exists_of_eq_append huse.function_not_mem (hkeep.trans hvs.symm)
          exact ⟨t, ts, List.suffix_rfl, ⟨rest, hts.symm⟩, hkeep⟩
        · obtain ⟨t', us, hsuffix, hkept⟩ := ih ts.length (by simp [← hlen]) hstands rfl
          exact ⟨t', us, hsuffix.trans (List.suffix_cons t ts), hkept⟩
      · rw [hwrite] at hstands
        have hrest : short <:+: pass rest := huse.infix_of_freeAlong (huse'.freeAlong _) hstands
        have hshorter : rest.length < n := by
          rw [← hlen, hts]
          exact huse'.length_lt rest
        obtain ⟨t', us, hsuffix, hkept⟩ := ih rest.length hshorter hrest rfl
        exact ⟨t', us, hsuffix.trans (hts ▸ List.suffix_append short' rest), hkept⟩

/-- The pass brings no use of a mark about. -/
theorem isInfix_of_isInfix {short call : List Token} {e : Expr} (huse : MarkUse short call e)
    {ts : List Token} (hstands : short <:+: pass ts) : short <:+: ts := by
  obtain ⟨t, us, hsuffix, hprefix, -⟩ := h.exists_kept huse hstands
  exact hprefix.isInfix.trans hsuffix.isInfix

end WritesCalls

/-- No literal with a factorial mark is left. -/
theorem not_infix_expandFactorials (v : Float) (ts : List Token) :
    ¬[number v, factorialMark] <:+: expandFactorials ts := by
  intro hstands
  obtain ⟨t, us, -, ⟨rest, hrest⟩, hkeep⟩ :=
    writesCalls_expandFactorials.exists_kept (.factorial v) hstands
  have hts : number v :: factorialMark :: rest = t :: us := hrest
  obtain ⟨rfl, rfl⟩ := List.cons.inj hts
  rw [expandFactorials] at hkeep
  cases hkeep

/-- No mark between literals is left. -/
theorem not_infix_expandBetween {mark : Token} {f : MathFunction} (h : StandsBetween mark f)
    (v w : Float) (ts : List Token) : ¬[number v, mark, number w] <:+: expandBetween mark f ts := by
  intro hstands
  obtain ⟨t, us, -, ⟨rest, hrest⟩, hkeep⟩ :=
    (writesCalls_expandBetween h).exists_kept (.between h v w) hstands
  have hts : number v :: mark :: number w :: rest = t :: us := hrest
  obtain ⟨rfl, rfl⟩ := List.cons.inj hts
  rw [expandBetween, if_pos rfl] at hkeep
  cases hkeep

/-- After the three passes no use of a mark is left. -/
theorem expanded_expandMarks (ts : List Token) : Expanded (expandMarks ts) := by
  intro short call e huse hstands
  have hpermutations :
      short <:+: expandBetween permutationMark .permutations (expandFactorials ts) :=
    (writesCalls_expandBetween .combinations).isInfix_of_isInfix huse hstands
  have hfactorials : short <:+: expandFactorials ts :=
    (writesCalls_expandBetween .permutations).isInfix_of_isInfix huse hpermutations
  cases huse with
  | factorial v => exact not_infix_expandFactorials v ts hfactorials
  | between hmark v w =>
    cases hmark with
    | permutations => exact not_infix_expandBetween .permutations v w _ hpermutations
    | combinations => exact not_infix_expandBetween .combinations v w _ hstands

/-- Tokens without a use of a mark stay as they are. -/
theorem Expanded.expandMarks_eq {ts : List Token} (h : Expanded ts) : expandMarks ts = ts := by
  rw [expandMarks, writesCalls_expandFactorials.eq_self h,
    (writesCalls_expandBetween .permutations).eq_self h,
    (writesCalls_expandBetween .combinations).eq_self h]

/-- Nothing is left for a second round. -/
theorem expandMarks_expandMarks (ts : List Token) : expandMarks (expandMarks ts) = expandMarks ts :=
  (expanded_expandMarks ts).expandMarks_eq

end Token
end SciCalc
