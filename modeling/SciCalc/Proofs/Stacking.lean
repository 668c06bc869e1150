import Mathlib.Data.List.Basic
import SciCalc.Proofs.Listing

/-!
# Reading any postfix list

What one postfix token does to the stack of trees, and from it what a whole list does, whether or
not it is the listing of a tree. A token that is read takes its operands off the stack and puts on
the node it builds of them, so the listings of the trees on the stack, from the bottom to the top,
are always the tokens read so far. A list is read to one tree exactly if it is the listing of that
tree, and the lists that are refused are told by counting: a token that stands in no postfix list, a
token that finds too few trees, or not exactly one tree at the end.
-/

set_option autoImplicit false

namespace SciCalc

namespace Token

/-- Whether the token may stand in a postfix list. -/
def isPostfix : Token → Bool
  | number _ | pi | answer | negate | operator _ | function _ => true
  | _ => false

/-- How many trees the token takes off the stack. -/
def operandCount : Token → Nat
  | negate => 1
  | operator _ => 2
  | function f => f.arity
  | _ => 0

/-- How many trees the tokens leave: each takes its operands and leaves the node it builds. -/
def treeCount : List Token → Int
  | [] => 0
  | t :: ts => 1 - (t.operandCount : Int) + treeCount ts

/-- No token leaves a tree. -/
@[simp] theorem treeCount_nil : treeCount [] = 0 := rfl

/-- The first token is counted apart. -/
@[simp] theorem treeCount_cons (t : Token) (ts : List Token) :
    treeCount (t :: ts) = 1 - (t.operandCount : Int) + treeCount ts := rfl

end Token

namespace Expr

/-! ## One token -/

/-- The node that a token builds of its operands, which stand from left to right. -/
inductive Builds : Token → List Expr → Expr → Prop where
  | number (v : Float) : Builds (.number v) [] (.number v)
  | pi : Builds .pi [] .pi
  | answer : Builds .answer [] .answer
  | negate (e : Expr) : Builds .negate [e] (.negate e)
  | operator (op : Operator) (l r : Expr) : Builds (.operator op) [l, r] (.binary op l r)
  | function {f : MathFunction} {args : List Expr} :
      args.length = f.arity → Builds (.function f) args (.call f args)

namespace Builds

variable {t : Token} {operands : List Expr} {e : Expr}

/-- A node is listed as its operands and its token. -/
theorem listing_eq (h : Builds t operands e) : e.listing = listingAll operands ++ [t] := by
  cases h <;> simp [listing, listingAll]

/-- A node of fitting operands fits. -/
theorem fits (h : Builds t operands e) (hoperands : FitsAll operands) : e.Fits := by
  cases h with
  | negate e => exact hoperands.1
  | operator op l r => exact ⟨hoperands.1, hoperands.2.1⟩
  | function hlen => exact ⟨hlen, hoperands⟩
  | _ => trivial

/-- A node has as many operands as its token takes. -/
theorem length_eq (h : Builds t operands e) : operands.length = t.operandCount := by
  cases h with
  | function hlen => exact hlen
  | _ => rfl

/-- A token that builds a node stands in postfix lists. -/
theorem isPostfix (h : Builds t operands e) : t.isPostfix = true := by
  cases h <;> rfl

end Builds

/-- A postfix token builds a node of as many operands as it takes. -/
theorem exists_builds {t : Token} {operands : List Expr} (ht : t.isPostfix = true)
    (h : operands.length = t.operandCount) : ∃ e, Builds t operands e := by
  cases t with
  | number v =>
    obtain rfl := List.length_eq_zero_iff.1 h
    exact ⟨_, .number v⟩
  | pi =>
    obtain rfl := List.length_eq_zero_iff.1 h
    exact ⟨_, .pi⟩
  | answer =>
    obtain rfl := List.length_eq_zero_iff.1 h
    exact ⟨_, .answer⟩
  | negate =>
    obtain ⟨e, rfl⟩ := List.length_eq_one_iff.1 h
    exact ⟨_, .negate e⟩
  | operator op =>
    obtain ⟨l, r, rfl⟩ := List.length_eq_two.1 h
    exact ⟨_, .operator op l r⟩
  | function f => exact ⟨_, .function h⟩
  | _ => cases ht

/-- A token is read where its operands lie on top of the stack, and its node takes their place. -/
theorem pushToken_eq_ok_iff {stack stack' : List Expr} {t : Token} :
    pushToken stack t = .ok stack' ↔ ∃ operands rest e,
      stack = operands.reverse ++ rest ∧ stack' = e :: rest ∧ Builds t operands e := by
  constructor
  · intro h
    cases t with
    | number v =>
      cases h
      exact ⟨[], stack, _, rfl, rfl, .number v⟩
    | pi =>
      cases h
      exact ⟨[], stack, _, rfl, rfl, .pi⟩
    | answer =>
      cases h
      exact ⟨[], stack, _, rfl, rfl, .answer⟩
    | negate =>
      rcases stack with _ | ⟨e, rest⟩
      · cases h
      · cases h
        exact ⟨[e], rest, _, rfl, rfl, .negate e⟩
    | operator op =>
      rcases stack with _ | ⟨r, _ | ⟨l, rest⟩⟩
      · cases h
      · cases h
      · cases h
        exact ⟨[l, r], rest, _, rfl, rfl, .operator op l r⟩
    | function f =>
      simp only [pushToken] at h
      split at h
      · cases h
      · next hlen =>
        cases h
        have harity : (stack.take f.arity).length = f.arity :=
          Nat.le_antisymm (List.length_take_le _ _) (Nat.le_of_not_lt hlen)
        refine ⟨(stack.take f.arity).reverse, stack.drop f.arity, _, ?_, rfl, .function ?_⟩
        · rw [List.reverse_reverse, List.take_append_drop]
        · rw [List.length_reverse, harity]
    | _ => cases h
  · rintro ⟨operands, rest, e, rfl, rfl, h⟩
    cases h with
    | function hlen => exact pushToken_function hlen rest
    | _ => rfl

/-- A postfix token is read exactly if there are as many trees as it takes. -/
theorem exists_pushToken_eq_ok_iff {stack : List Expr} {t : Token} :
    (∃ stack', pushToken stack t = .ok stack') ↔
      t.isPostfix = true ∧ t.operandCount ≤ stack.length := by
  constructor
  · rintro ⟨stack', h⟩
    obtain ⟨operands, rest, e, rfl, -, h⟩ := pushToken_eq_ok_iff.1 h
    refine ⟨h.isPostfix, ?_⟩
    simp [h.length_eq]
  · rintro ⟨ht, hlen⟩
    have htake : (stack.take t.operandCount).reverse.length = t.operandCount := by
      rw [List.length_reverse, List.length_take_of_le hlen]
    obtain ⟨e, h⟩ := exists_builds ht htake
    refine ⟨_, pushToken_eq_ok_iff.2 ⟨_, stack.drop t.operandCount, e, ?_, rfl, h⟩⟩
    rw [List.reverse_reverse, List.take_append_drop]

/-- A token that is read leaves one tree in the place of those it takes. -/
theorem length_of_pushToken {stack stack' : List Expr} {t : Token}
    (h : pushToken stack t = .ok stack') :
    (stack'.length : Int) = stack.length + (1 - t.operandCount) := by
  obtain ⟨operands, rest, e, rfl, rfl, hbuilds⟩ := pushToken_eq_ok_iff.1 h
  simp only [List.length_append, List.length_reverse, List.length_cons, hbuilds.length_eq]
  omega

/-! ## Runs -/

/-- Tokens are read where the first one and the others are. -/
theorem pushAll_cons_eq_ok_iff {stack stack' : List Expr} {t : Token} {ts : List Token} :
    pushAll stack (t :: ts) = .ok stack' ↔
      ∃ stack₁, pushToken stack t = .ok stack₁ ∧ pushAll stack₁ ts = .ok stack' := by
  rw [pushAll_cons]
  cases pushToken stack t <;> simp [Except.bind]

/-- Joined trees are listed one part after the other. -/
theorem listingAll_append (es fs : List Expr) :
    listingAll (es ++ fs) = listingAll es ++ listingAll fs := by
  simp [listingAll_eq_flatMap]

/-- Joined trees fit if those of both parts do. -/
theorem fitsAll_append (es fs : List Expr) :
    FitsAll (es ++ fs) ↔ FitsAll es ∧ FitsAll fs := by
  simp only [fitsAll_iff, List.forall_mem_append]

/-- The trees on the stack fit, and they are listed as the tokens that are read. -/
theorem listing_of_pushAll {stack stack' : List Expr} {ts : List Token}
    (h : pushAll stack ts = .ok stack') (hstack : FitsAll stack) :
    FitsAll stack' ∧ listingAll stack'.reverse = listingAll stack.reverse ++ ts := by
  induction ts generalizing stack with
  | nil =>
    cases h
    exact ⟨hstack, (List.append_nil _).symm⟩
  | cons t ts ih =>
    obtain ⟨stack₁, hstep, h⟩ := pushAll_cons_eq_ok_iff.1 h
    obtain ⟨operands, rest, e, rfl, rfl, hbuilds⟩ := pushToken_eq_ok_iff.1 hstep
    obtain ⟨hoperands, hrest⟩ := (fitsAll_append _ _).1 hstack
    have hoperands : FitsAll operands := by
      simpa only [fitsAll_iff, List.mem_reverse] using hoperands
    obtain ⟨hfits, hlisting⟩ := ih h ⟨hbuilds.fits hoperands, hrest⟩
    refine ⟨hfits, hlisting.trans ?_⟩
    simp [listingAll_append, listingAll, hbuilds.listing_eq]

/-- A list is read to a tree exactly if the tree fits and the list is its listing. -/
theorem ofPostfix_eq_ok_iff {ts : List Token} {e : Expr} :
    ofPostfix ts = .ok e ↔ e.Fits ∧ ts = e.listing := by
  constructor
  · intro h
    have hpush : pushAll [] ts = .ok [e] := by
      rcases hrun : pushAll [] ts with fault | _ | ⟨e', _ | ⟨e'', rest⟩⟩
      all_goals
        simp only [ofPostfix, hrun, bind, Except.bind] at h
        cases h
      rfl
    obtain ⟨hfits, hlisting⟩ := listing_of_pushAll hpush trivial
    exact ⟨hfits.1, by simpa [listingAll] using hlisting.symm⟩
  · rintro ⟨hfits, rfl⟩
    exact ofPostfix_listing hfits

/-! ## Counting -/

/-- The tokens stand in postfix lists, and each finds its operands on a stack of so many trees. -/
def Stocked (trees : Int) (ts : List Token) : Prop :=
  (∀ t ∈ ts, t.isPostfix = true) ∧
    ∀ before t after, ts = before ++ t :: after →
      (t.operandCount : Int) ≤ trees + Token.treeCount before

/-- The first token finds its operands on the stack, the others find theirs on what it leaves. -/
theorem stocked_cons {trees : Int} {t : Token} {ts : List Token} :
    Stocked trees (t :: ts) ↔ (t.isPostfix = true ∧ (t.operandCount : Int) ≤ trees) ∧
      Stocked (trees + (1 - t.operandCount)) ts := by
  constructor
  · rintro ⟨hall, hcount⟩
    obtain ⟨ht, hts⟩ := List.forall_mem_cons.1 hall
    refine ⟨⟨ht, by simpa using hcount [] t ts rfl⟩, hts, ?_⟩
    rintro before u after rfl
    have hu := hcount (t :: before) u after rfl
    rw [Token.treeCount_cons] at hu
    omega
  · rintro ⟨⟨ht, hcount⟩, hts, hrest⟩
    refine ⟨List.forall_mem_cons.2 ⟨ht, hts⟩, fun before u after heq => ?_⟩
    rcases before with _ | ⟨b, before⟩
    · cases heq
      simpa using hcount
    · cases heq
      have hu := hrest before u after rfl
      rw [Token.treeCount_cons]
      omega

/-- Tokens are read exactly if each finds its operands. They leave as many trees as they count. -/
theorem exists_pushAll_iff {stack : List Expr} {ts : List Token} {n : Int} :
    (∃ stack', pushAll stack ts = .ok stack' ∧ (stack'.length : Int) = n) ↔
      Stocked stack.length ts ∧ n = stack.length + Token.treeCount ts := by
  induction ts generalizing stack with
  | nil =>
    have hstocked : Stocked stack.length [] := ⟨by simp, by simp⟩
    constructor
    · rintro ⟨stack', h, rfl⟩
      cases h
      exact ⟨hstocked, by simp⟩
    · rintro ⟨-, rfl⟩
      exact ⟨stack, rfl, by simp⟩
  | cons t ts ih =>
    rw [stocked_cons, Token.treeCount_cons]
    constructor
    · rintro ⟨stack', h, hn⟩
      obtain ⟨stack₁, hstep, h⟩ := pushAll_cons_eq_ok_iff.1 h
      obtain ⟨ht, hlen⟩ := exists_pushToken_eq_ok_iff.1 ⟨stack₁, hstep⟩
      obtain ⟨hstocked, hcount⟩ := ih.1 ⟨stack', h, hn⟩
      rw [length_of_pushToken hstep] at hstocked hcount
      exact ⟨⟨⟨ht, by omega⟩, hstocked⟩, by omega⟩
    · rintro ⟨⟨⟨ht, hlen⟩, hstocked⟩, hn⟩
      obtain ⟨stack₁, hstep⟩ := exists_pushToken_eq_ok_iff.2 ⟨ht, Int.ofNat_le.1 hlen⟩
      rw [← length_of_pushToken hstep] at hstocked
      have hcount : n = stack₁.length + Token.treeCount ts := by
        rw [length_of_pushToken hstep]
        omega
      obtain ⟨stack', h, hlast⟩ := ih.2 ⟨hstocked, hcount⟩
      exact ⟨stack', pushAll_cons_eq_ok_iff.2 ⟨stack₁, hstep, h⟩, hlast⟩

/-- A list is read to a tree exactly if each token finds its operands and one tree is left. -/
theorem exists_ofPostfix_eq_ok_iff {ts : List Token} :
    (∃ e, ofPostfix ts = .ok e) ↔ Stocked 0 ts ∧ Token.treeCount ts = 1 := by
  have hread := @exists_pushAll_iff [] ts 1
  have hone : (∃ e, ofPostfix ts = .ok e) ↔
      ∃ stack, pushAll [] ts = .ok stack ∧ (stack.length : Int) = 1 := by
    rcases hrun : pushAll [] ts with fault | _ | ⟨e, _ | ⟨e', rest⟩⟩
    · simp [ofPostfix, hrun, bind, Except.bind]
    · simp [ofPostfix, hrun, bind, Except.bind]
    · simp [ofPostfix, hrun, bind, Except.bind, pure, Except.pure]
    · have hmany : ((e :: e' :: rest).length : Int) ≠ 1 := by
        simp only [List.length_cons]
        omega
      refine iff_of_false (by simp [ofPostfix, hrun, bind, Except.bind]) ?_
      rintro ⟨stack, h, hlen⟩
      cases h
      exact hmany hlen
  rw [hone, hread]
  simp [eq_comm]

/--
Reading a postfix list undoes listing: a list is read to a tree exactly if every call in the tree
has the arguments its function takes and the list is the listing of the tree. So two lists are never
read to the same tree, and a list is refused exactly if one of its tokens stands in no postfix list,
one finds fewer trees than it takes, or not exactly one tree is left at the end.
-/
theorem ofPostfix_inverts_listing (ts : List Token) :
    (∀ e, ofPostfix ts = .ok e ↔ e.Fits ∧ ts = e.listing) ∧
      (∀ us e, ofPostfix ts = .ok e → ofPostfix us = .ok e → ts = us) ∧
      ((∃ fault, ofPostfix ts = .error fault) ↔
        (∃ t ∈ ts, t.isPostfix = false) ∨
          (∃ before t after, ts = before ++ t :: after ∧
            Token.treeCount before < t.operandCount) ∨
          Token.treeCount ts ≠ 1) := by
  refine ⟨fun e => ofPostfix_eq_ok_iff, fun us e hts hus => ?_, ?_⟩
  · exact (ofPostfix_eq_ok_iff.1 hts).2.trans (ofPostfix_eq_ok_iff.1 hus).2.symm
  · have hrefused : (∃ fault, ofPostfix ts = .error fault) ↔ ¬∃ e, ofPostfix ts = .ok e := by
      cases ofPostfix ts <;> simp
    rw [hrefused, exists_ofPostfix_eq_ok_iff, Stocked]
    simp only [not_and_or, not_forall, Bool.not_eq_true, exists_prop, Int.not_le, Int.zero_add,
      or_assoc]

/-- A function of two arguments that finds one tree is refused. -/
example : ofPostfix [.number 5, .function .permutations] = .error .invalidPostfix := rfl

end Expr

end SciCalc
