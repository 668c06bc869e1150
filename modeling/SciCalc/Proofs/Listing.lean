import SciCalc.Expr.OfPostfix

/-!
# The listing of an expression

The listing of a tree is its postfix form: the children from left to right, then the node's token.
A tree fits when every call in it has as many arguments as its function takes. Reading the listing
of a fitting tree puts that tree on the stack, whatever was on the stack before and whatever tokens
follow, so the tree of a listing is the tree itself.
-/

set_option autoImplicit false

namespace SciCalc.Expr

mutual

/-- The postfix tokens of a tree. -/
def listing : Expr → List Token
  | number v => [.number v]
  | pi => [.pi]
  | answer => [.answer]
  | negate e => e.listing ++ [.negate]
  | binary op l r => l.listing ++ r.listing ++ [.operator op]
  | call f args => listingAll args ++ [.function f]

/-- The postfix tokens of trees, one after the other. -/
def listingAll : List Expr → List Token
  | [] => []
  | e :: es => e.listing ++ listingAll es

end

mutual

/-- Every call in the tree has as many arguments as its function takes. -/
def Fits : Expr → Prop
  | number _ => True
  | pi => True
  | answer => True
  | negate e => e.Fits
  | binary _ l r => l.Fits ∧ r.Fits
  | call f args => args.length = f.arity ∧ FitsAll args

/-- All the trees fit. -/
def FitsAll : List Expr → Prop
  | [] => True
  | e :: es => e.Fits ∧ FitsAll es

end

/-- The listing of trees is the listings of each of them, joined. -/
theorem listingAll_eq_flatMap (es : List Expr) : listingAll es = es.flatMap listing := by
  induction es with
  | nil => rfl
  | cons e es ih => simp [listingAll, ih]

/-- Trees fit together when each of them does. -/
theorem fitsAll_iff (es : List Expr) : FitsAll es ↔ ∀ e ∈ es, e.Fits := by
  induction es with
  | nil => simp [FitsAll]
  | cons e es ih => simp [FitsAll, ih]

/-! ## Reading a listing -/

/-- One token is read before the others. -/
theorem pushAll_cons (stack : List Expr) (t : Token) (ts : List Token) :
    pushAll stack (t :: ts) = (pushToken stack t).bind fun s => pushAll s ts := rfl

/-- A function takes its arguments off the stack, the last one first. -/
theorem pushToken_function {f : MathFunction} {args : List Expr} (h : args.length = f.arity)
    (stack : List Expr) :
    pushToken (args.reverse ++ stack) (.function f) = .ok (.call f args :: stack) := by
  have htake : (args.reverse ++ stack).take f.arity = args.reverse := by simp [← h]
  have hdrop : (args.reverse ++ stack).drop f.arity = stack := by simp [← h]
  simp [pushToken, htake, hdrop, h]

mutual

/-- The listing of a fitting tree is read as the tree on top of the stack. -/
theorem pushAll_listing {e : Expr} (h : e.Fits) (stack : List Expr) (ts : List Token) :
    pushAll stack (e.listing ++ ts) = pushAll (e :: stack) ts := by
  match e with
  | number v => rfl
  | pi => rfl
  | answer => rfl
  | negate e =>
    rw [Fits] at h
    rw [listing, List.append_assoc, pushAll_listing h]
    rfl
  | binary op l r =>
    rw [Fits] at h
    rw [listing, List.append_assoc, List.append_assoc, pushAll_listing h.1, pushAll_listing h.2]
    rfl
  | call f args =>
    rw [Fits] at h
    rw [listing, List.append_assoc, pushAll_listingAll h.2, List.cons_append, pushAll_cons,
      pushToken_function h.1]
    rfl

/-- The listings of fitting trees are read as the trees, the last one on top. -/
theorem pushAll_listingAll {es : List Expr} (h : FitsAll es) (stack : List Expr)
    (ts : List Token) :
    pushAll stack (listingAll es ++ ts) = pushAll (es.reverse ++ stack) ts := by
  match es with
  | [] => rfl
  | e :: es =>
    rw [FitsAll] at h
    rw [listingAll, List.append_assoc, pushAll_listing h.1, pushAll_listingAll h.2]
    simp

end

/-- The tree of a fitting tree's listing is the tree. -/
theorem ofPostfix_listing {e : Expr} (h : e.Fits) : ofPostfix e.listing = .ok e := by
  have hpush : pushAll [] e.listing = .ok [e] := by
    rw [← List.append_nil e.listing, pushAll_listing h]
    rfl
  simp [ofPostfix, hpush, bind, Except.bind, pure, Except.pure]

/-- Fitting trees with the same listing are the same. -/
theorem eq_of_listing_eq {e e' : Expr} (h : e.Fits) (h' : e'.Fits)
    (hlisting : e.listing = e'.listing) : e = e' := by
  have hread := ofPostfix_listing h
  rw [hlisting, ofPostfix_listing h'] at hread
  exact (Except.ok.inj hread).symm

end SciCalc.Expr
