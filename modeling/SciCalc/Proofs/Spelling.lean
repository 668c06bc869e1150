import SciCalc.Proofs.AngleTrees
import SciCalc.Proofs.Preparing

/-!
# Literals with a sign

No text is read as a literal with a sign: a number below zero is spelled as the negation of its
magnitude. A tree with such literals stands for the tree in which they are spelled so. In the
postfix form the spelling is done token by token, so trees with the same spelling can be told by
their postfix forms, and it does not matter whether angles are converted before or after.
-/

set_option autoImplicit false

namespace SciCalc

open Binary64 (isNegative)

/-- A literal with a sign as the postfix tokens of its spelling; any other token as it is. -/
def Token.spelled : Token → List Token
  | number v => if isNegative v then [number v.abs, negate] else [number v]
  | t => [t]

namespace Expr

mutual

/-- The tree with every literal that has a sign spelled as the negation of its magnitude. -/
def spelled : Expr → Expr
  | number v => if isNegative v then negate (number v.abs) else number v
  | pi => pi
  | answer => answer
  | negate e => negate e.spelled
  | binary op l r => binary op l.spelled r.spelled
  | call f args => call f (spelledAll args)

/-- All the trees with their literals spelled. -/
def spelledAll : List Expr → List Expr
  | [] => []
  | e :: es => e.spelled :: spelledAll es

end

/-- Trees are spelled one by one. -/
theorem spelledAll_eq_map (es : List Expr) : spelledAll es = es.map spelled := by
  induction es with
  | nil => rfl
  | cons e es ih => rw [spelledAll, ih, List.map_cons]

mutual

/-- A tree is spelled token by token. -/
theorem listing_spelled (e : Expr) : e.spelled.listing = e.listing.flatMap Token.spelled := by
  match e with
  | number v =>
    rw [spelled, listing, List.flatMap_singleton, Token.spelled]
    split <;> rfl
  | pi => rfl
  | answer => rfl
  | negate e =>
    rw [spelled, listing, listing, List.flatMap_append, listing_spelled e]
    rfl
  | binary op l r =>
    rw [spelled, listing, listing, List.flatMap_append, List.flatMap_append, listing_spelled l,
      listing_spelled r]
    rfl
  | call f args =>
    rw [spelled, listing, listing, List.flatMap_append, listingAll_spelledAll args]
    rfl

/-- Trees are spelled token by token. -/
theorem listingAll_spelledAll (es : List Expr) :
    listingAll (spelledAll es) = (listingAll es).flatMap Token.spelled := by
  match es with
  | [] => rfl
  | e :: es =>
    rw [spelledAll, listingAll, listingAll, List.flatMap_append, listing_spelled e,
      listingAll_spelledAll es]

end

mutual

/-- A fitting tree is spelled as one. -/
theorem Fits.spelled {e : Expr} (h : e.Fits) : e.spelled.Fits := by
  match e with
  | number v =>
    rw [Expr.spelled]
    split <;> trivial
  | pi => trivial
  | answer => trivial
  | negate e => exact Fits.spelled (e := e) h
  | binary op l r => exact ⟨Fits.spelled h.1, Fits.spelled h.2⟩
  | call f args =>
    have hlen : (spelledAll args).length = args.length := by simp [spelledAll_eq_map]
    exact ⟨hlen.trans h.1, FitsAll.spelledAll h.2⟩

/-- Fitting trees are spelled as such. -/
theorem FitsAll.spelledAll {es : List Expr} (h : FitsAll es) : FitsAll (spelledAll es) := by
  match es with
  | [] => trivial
  | e :: es => exact ⟨Fits.spelled h.1, FitsAll.spelledAll h.2⟩

end

/-- Trees with the same spelling are told by their listings. -/
theorem spelled_eq_iff {e e' : Expr} (h : e.Fits) (h' : e'.Fits) :
    e.spelled = e'.spelled ↔
      e.listing.flatMap Token.spelled = e'.listing.flatMap Token.spelled := by
  rw [← listing_spelled, ← listing_spelled]
  exact ⟨congrArg listing, eq_of_listing_eq h.spelled h'.spelled⟩

/-! ## Angles -/

mutual

/-- Literals are spelled before angles are converted or behind. -/
theorem spelled_inDegrees (e : Expr) : e.inDegrees.spelled = e.spelled.inDegrees := by
  match e with
  | number v =>
    rw [inDegrees, spelled]
    split <;> rfl
  | pi => rfl
  | answer => rfl
  | negate e => rw [inDegrees, spelled, spelled, inDegrees, spelled_inDegrees e]
  | binary op l r =>
    rw [inDegrees, spelled, spelled, inDegrees, spelled_inDegrees l, spelled_inDegrees r]
  | call f args =>
    have hfactor : isNegative 180 = false := by decide +kernel
    have hscaled (e : Expr) : e.scaled.spelled = e.spelled.scaled := by
      simp [scaled, spelled, hfactor]
    have hargs := spelledAll_inDegreesAll args
    rw [inDegrees, spelled, spelled, inDegrees, ← hargs]
    split
    · simp [spelledAll_eq_map, hscaled]
    · rfl

/-- Literals are spelled before angles are converted or behind. -/
theorem spelledAll_inDegreesAll (es : List Expr) :
    spelledAll (inDegreesAll es) = inDegreesAll (spelledAll es) := by
  match es with
  | [] => rfl
  | e :: es =>
    rw [inDegreesAll, spelledAll, spelledAll, inDegreesAll, spelled_inDegrees e,
      spelledAll_inDegreesAll es]

end

mutual

/-- Trees that are the same with their angles converted are the same. -/
theorem eq_of_inDegrees_eq {e e' : Expr} (h : e.inDegrees = e'.inDegrees) : e = e' := by
  match e with
  | number v => cases e' <;> first | cases h; done | exact h
  | pi => cases e' <;> first | rfl | cases h
  | answer => cases e' <;> first | rfl | cases h
  | negate e =>
    cases e' with
    | negate e' => rw [eq_of_inDegrees_eq (Expr.negate.inj h)]
    | _ => cases h
  | binary op l r =>
    cases e' with
    | binary op' l' r' =>
      obtain ⟨rfl, hl, hr⟩ := Expr.binary.inj h
      rw [eq_of_inDegrees_eq hl, eq_of_inDegrees_eq hr]
    | _ => cases h
  | call f args =>
    cases e' with
    | call f' args' =>
      obtain ⟨rfl, hargs⟩ := Expr.call.inj h
      have hscaled (a b : Expr) (hab : a.scaled = b.scaled) : a = b := (Expr.binary.inj hab).2.2
      have hall : inDegreesAll args = inDegreesAll args' := by
        split at hargs
        · exact (List.map_inj_right hscaled).1 hargs
        · exact hargs
      rw [eq_of_inDegreesAll_eq hall]
    | _ => cases h

/-- Trees that are the same with their angles converted are the same. -/
theorem eq_of_inDegreesAll_eq {es es' : List Expr} (h : inDegreesAll es = inDegreesAll es') :
    es = es' := by
  match es with
  | [] => cases es' <;> first | rfl | cases h
  | e :: es =>
    cases es' with
    | nil => cases h
    | cons e' es' =>
      obtain ⟨he, hes⟩ := List.cons.inj h
      rw [eq_of_inDegrees_eq he, eq_of_inDegreesAll_eq hes]

end

end Expr

/-! ## Tokens that are parsed alike -/

open Token (prepare toPlain)

/-- The first tokens are accepted exactly where the second are, and then they have the same tree,
if literals with a sign are spelled. -/
structure ParseAlike (ts us : List Token) : Prop where
  accepted_iff : (∃ e, Expr.ofInfix ts = .ok e) ↔ ∃ e, Expr.ofInfix us = .ok e
  spelled_eq : ∀ e e', Expr.ofInfix ts = .ok e → Expr.ofInfix us = .ok e' → e.spelled = e'.spelled

/-- Tokens are parsed like themselves. -/
theorem ParseAlike.refl (ts : List Token) : ParseAlike ts ts :=
  ⟨Iff.rfl, fun _ _ h h' => congrArg Expr.spelled (Except.ok.inj (h.symm.trans h'))⟩

/-- It does not depend on the angle mode whether tokens are accepted. -/
theorem exists_ofInfix_prepare_iff (mode : AngleMode) (ts : List Token) :
    (∃ e, Expr.ofInfix (prepare mode ts) = .ok e) ↔ ∃ e, Expr.ofInfix (toPlain ts) = .ok e := by
  cases mode with
  | radians => rfl
  | degrees =>
    constructor
    · rintro ⟨e', h⟩
      obtain ⟨e, he, -⟩ := Expr.ofInfix_convertWithin_eq_ok_iff.1 h
      exact ⟨e, he⟩
    · rintro ⟨e, he⟩
      exact ⟨_, Expr.ofInfix_convertWithin_eq_ok_iff.2 ⟨e, he, rfl⟩⟩

/-- It does not depend on the angle mode whether tokens are parsed alike. -/
theorem parseAlike_prepare_iff (mode : AngleMode) (ts us : List Token) :
    ParseAlike (prepare mode ts) (prepare mode us) ↔ ParseAlike (toPlain ts) (toPlain us) := by
  cases mode with
  | radians => rfl
  | degrees =>
    have hconvert {ts : List Token} {e' : Expr} : Expr.ofInfix (prepare .degrees ts) = .ok e' ↔
        ∃ e, Expr.ofInfix (toPlain ts) = .ok e ∧ e' = e.inDegrees :=
      Expr.ofInfix_convertWithin_eq_ok_iff
    have haccepted (ts : List Token) := exists_ofInfix_prepare_iff .degrees ts
    constructor
    · rintro ⟨hiff, heq⟩
      refine ⟨(haccepted ts).symm.trans (hiff.trans (haccepted us)), fun e e' h h' => ?_⟩
      have hspelled := heq _ _ (hconvert.2 ⟨e, h, rfl⟩) (hconvert.2 ⟨e', h', rfl⟩)
      rw [Expr.spelled_inDegrees, Expr.spelled_inDegrees] at hspelled
      exact Expr.eq_of_inDegrees_eq hspelled
    · rintro ⟨hiff, heq⟩
      refine ⟨(haccepted ts).trans (hiff.trans (haccepted us).symm), fun e e' h h' => ?_⟩
      obtain ⟨d, hd, rfl⟩ := hconvert.1 h
      obtain ⟨d', hd', rfl⟩ := hconvert.1 h'
      rw [Expr.spelled_inDegrees, Expr.spelled_inDegrees, heq _ _ hd hd']

end SciCalc
