import SciCalc.Proofs.Listing
import SciCalc.Proofs.Nesting

/-!
# The grammar of expressions

The grammar says which tokens are an expression and which tree they stand for:

* a sum is products with `+` or `-` between them, grouped from the left;
* a product is signed operands with `*` or `/` between them, grouped from the left;
* a signed operand is a power behind any number of signs, of which only the minus leaves a node;
* a power is an atom, or an atom raised to a signed operand, so powers group from the right;
* an atom is a literal, a constant, a bracketed sum, or a call with as many arguments as its
  function takes.

Calculators write more than that, so the grammar leaves two places open: a dialect may add atoms
and may let operands stand side by side as a product. The plain dialect does neither. Every tree of
a dialect whose atoms fit has calls of the right arity only. In the plain dialect every bracket has
its partner.
-/

set_option autoImplicit false

namespace SciCalc.Grammar

/-- What tokens can be, from the weakest binding to the strongest. -/
inductive Category where
  | sum | product | signed | power | atom
deriving DecidableEq

/-- What a dialect adds to the grammar. -/
structure Dialect where
  /-- Further atoms and their trees. -/
  leaf : List Token → Expr → Prop
  /-- Whether the tokens of a power may follow those of a product without a sign. -/
  joins : List Token → List Token → Prop

/-- The dialect that adds nothing. -/
def Dialect.plain : Dialect where
  leaf _ _ := False
  joins _ _ := False

/-- The tokens are of the category and stand for the tree. -/
inductive Derives (d : Dialect) : Category → List Token → Expr → Prop where
  | sumOfProduct {ts : List Token} {e : Expr} : Derives d .product ts e → Derives d .sum ts e
  /-- `Sum ('+' | '-') Product` -/
  | sum {op : Operator} {ts us : List Token} {l r : Expr} : op = .add ∨ op = .subtract →
      Derives d .sum ts l → Derives d .product us r →
      Derives d .sum (ts ++ .operator op :: us) (.binary op l r)
  | productOfSigned {ts : List Token} {e : Expr} : Derives d .signed ts e → Derives d .product ts e
  /-- `Product ('*' | '/') Signed` -/
  | product {op : Operator} {ts us : List Token} {l r : Expr} : op = .multiply ∨ op = .divide →
      Derives d .product ts l → Derives d .signed us r →
      Derives d .product (ts ++ .operator op :: us) (.binary op l r)
  /-- `Product Power`, where the dialect allows it -/
  | juxtaposed {ts us : List Token} {l r : Expr} : d.joins ts us →
      Derives d .product ts l → Derives d .power us r →
      Derives d .product (ts ++ us) (.binary .multiply l r)
  | signedOfPower {ts : List Token} {e : Expr} : Derives d .power ts e → Derives d .signed ts e
  /-- `'-' Signed` -/
  | minus {ts : List Token} {e : Expr} : Derives d .signed ts e →
      Derives d .signed (.operator .subtract :: ts) (.negate e)
  /-- `'+' Signed` -/
  | plus {ts : List Token} {e : Expr} : Derives d .signed ts e →
      Derives d .signed (.operator .add :: ts) e
  | powerOfAtom {ts : List Token} {e : Expr} : Derives d .atom ts e → Derives d .power ts e
  /-- `Atom '^' Signed` -/
  | power {ts us : List Token} {b x : Expr} : Derives d .atom ts b → Derives d .signed us x →
      Derives d .power (ts ++ .operator .raise :: us) (.binary .raise b x)
  | number (v : Float) : Derives d .atom [.number v] (.number v)
  | pi : Derives d .atom [.pi] .pi
  | answer : Derives d .atom [.answer] .answer
  | leaf {ts : List Token} {e : Expr} : d.leaf ts e → Derives d .atom ts e
  /-- `'(' Sum ')'` -/
  | bracketed {ts : List Token} {e : Expr} : Derives d .sum ts e →
      Derives d .atom (.opening :: (ts ++ [.closing])) e
  /-- `f '(' Sum (',' Sum)* ')'` with as many sums as `f` takes arguments -/
  | call (f : MathFunction) (arguments : Fin f.arity → List Token) (trees : Fin f.arity → Expr) :
      (∀ i, Derives d .sum (arguments i) (trees i)) →
      Derives d .atom
        (.function f :: .opening ::
          ([Token.comma].intercalate (List.ofFn arguments) ++ [.closing]))
        (.call f (List.ofFn trees))

/-- A derived tree fits, if those of the dialect's own atoms do. -/
theorem Derives.fits {d : Dialect} (hd : ∀ ts e, d.leaf ts e → e.Fits) {c : Category}
    {ts : List Token} {e : Expr} (h : Derives d c ts e) : e.Fits := by
  induction h with
  | sumOfProduct _ ih => exact ih
  | sum _ _ _ ihl ihr => exact ⟨ihl, ihr⟩
  | productOfSigned _ ih => exact ih
  | product _ _ _ ihl ihr => exact ⟨ihl, ihr⟩
  | juxtaposed _ _ _ ihl ihr => exact ⟨ihl, ihr⟩
  | signedOfPower _ ih => exact ih
  | minus _ ih => exact ih
  | plus _ ih => exact ih
  | powerOfAtom _ ih => exact ih
  | power _ _ ihl ihr => exact ⟨ihl, ihr⟩
  | number v => trivial
  | pi => trivial
  | answer => trivial
  | leaf h => exact hd _ _ h
  | bracketed _ ih => exact ih
  | call f arguments trees _ ih =>
    refine ⟨List.length_ofFn, (Expr.fitsAll_iff _).2 fun e he => ?_⟩
    obtain ⟨i, rfl⟩ := List.mem_ofFn.1 he
    exact ih i

/-- A tree of the plain dialect fits. -/
theorem Derives.fits_of_plain {c : Category} {ts : List Token} {e : Expr}
    (h : Derives .plain c ts e) : e.Fits :=
  h.fits fun _ _ hleaf => False.elim hleaf

/-- The brackets of what the grammar derives match. -/
theorem Derives.matched {c : Category} {ts : List Token} {e : Expr} (h : Derives .plain c ts e) :
    Token.Matched ts := by
  induction h with
  | sumOfProduct _ ih => exact ih
  | sum _ _ _ ihl ihr => exact ihl.append_cons (by simp) (by simp) ihr
  | productOfSigned _ ih => exact ih
  | product _ _ _ ihl ihr => exact ihl.append_cons (by simp) (by simp) ihr
  | juxtaposed hjoins _ _ _ _ => exact False.elim hjoins
  | signedOfPower _ ih => exact ih
  | minus _ ih => exact ih.cons (by simp) (by simp)
  | plus _ ih => exact ih.cons (by simp) (by simp)
  | powerOfAtom _ ih => exact ih
  | power _ _ ihb ihx => exact ihb.append_cons (by simp) (by simp) ihx
  | number v => rfl
  | pi => rfl
  | answer => rfl
  | leaf hleaf => exact False.elim hleaf
  | bracketed _ ih => exact ih.bracketed
  | call f arguments trees _ ih =>
    have hargs : Token.Matched ([Token.comma].intercalate (List.ofFn arguments)) := by
      refine Token.matched_intercalate fun ts hts => ?_
      obtain ⟨i, rfl⟩ := List.mem_ofFn.1 hts
      exact ih i
    exact hargs.enclosed (some f)

/-! ## Calls over lists of arguments -/

/-- A call may be derived from a list of arguments of the right length. -/
theorem Derives.call_of_list {d : Dialect} {f : MathFunction} {args : List (List Token × Expr)}
    (hlen : args.length = f.arity) (h : ∀ a ∈ args, Derives d .sum a.1 a.2) :
    Derives d .atom
      (.function f :: .opening :: ([Token.comma].intercalate (args.map Prod.fst) ++ [.closing]))
      (.call f (args.map Prod.snd)) := by
  have hfst : args.map Prod.fst = List.ofFn fun i : Fin f.arity => args[i].1 := by
    refine List.ext_getElem (by simp [hlen]) fun n h₁ h₂ => ?_
    simp
  have hsnd : args.map Prod.snd = List.ofFn fun i : Fin f.arity => args[i].2 := by
    refine List.ext_getElem (by simp [hlen]) fun n h₁ h₂ => ?_
    simp
  rw [hfst, hsnd]
  exact .call f _ _ fun i => h _ (List.getElem_mem _)

end SciCalc.Grammar
