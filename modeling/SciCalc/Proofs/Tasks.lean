import Mathlib.Logic.Relation
import SciCalc.Proofs.Evaluating

/-!
# Evaluating without recursion

An expression is evaluated by working off tasks over a list of values. The answer is that of the
recursive definition, and no step of the work ever lacks a value: the tasks that are left, counted
against the values that are there, always come to a single value in the end. This is kept by every
step, so a node that is combined is no leaf and finds all of its operands, and behind the last task
exactly one value is left.
-/

set_option autoImplicit false

namespace SciCalc

namespace MathFunction

/-- A function without enough arguments refuses. -/
theorem apply_of_length_lt {f : MathFunction} {vs : List Float} (h : vs.length < f.arity) :
    f.apply vs = .error (.malformed (.argumentMissing f)) := by
  match vs with
  | [] => cases f <;> rfl
  | [x] =>
    cases f with
    | permutations => rfl
    | combinations => rfl
    | _ => exact absurd h (by simp [arity])
  | x :: y :: rest =>
    have hmost : f.arity ≤ 2 := by cases f <;> decide
    simp only [List.length_cons] at h
    omega

/-- Arguments beyond those a function needs are ignored. -/
theorem apply_take {f : MathFunction} {vs : List Float} (h : f.arity ≤ vs.length) :
    f.apply (vs.take f.arity) = f.apply vs := by
  match vs with
  | [] => exact absurd h (by cases f <;> simp [arity])
  | [x] =>
    cases f with
    | permutations => exact absurd h (by simp [arity])
    | combinations => exact absurd h (by simp [arity])
    | _ => rfl
  | x :: y :: rest => cases f <;> rfl

end MathFunction

namespace Expr

variable {lastResult : Float}

/-! ## The value of a call -/

/-- The first fault among expressions is that of the list. -/
theorem valueAll_append_cons_error {before after : List Expr} {e : Expr} {vs : List Float}
    {fault : Fault} (hbefore : valueAll lastResult before = .ok vs)
    (he : value lastResult e = .error fault) :
    valueAll lastResult (before ++ e :: after) = .error fault := by
  induction before generalizing vs with
  | nil =>
    rw [List.nil_append, valueAll, he]
    rfl
  | cons first before ih =>
    rw [valueAll] at hbefore
    obtain ⟨a, hfirst, hbefore⟩ := Postfix.bind_eq_ok_iff.1 hbefore
    obtain ⟨as, hbefore, -⟩ := Postfix.bind_eq_ok_iff.1 hbefore
    rw [List.cons_append, valueAll, hfirst, ih hbefore]
    rfl

/-- A call whose arguments have values applies its function to those that it needs. -/
theorem value_call_of_valueAll {f : MathFunction} {args : List Expr} {vs : List Float}
    (h : valueAll lastResult args = .ok vs) :
    value lastResult (.call f args) =
      if vs.length < f.arity then .error (.malformed (.argumentMissing f))
      else f.apply (vs.take f.arity) := by
  have hcall : value lastResult (.call f args) = f.apply vs := by
    rw [value, h]
    rfl
  rw [hcall]
  split
  case isTrue hshort => exact MathFunction.apply_of_length_lt hshort
  case isFalse hlong => exact (MathFunction.apply_take (Nat.le_of_not_lt hlong)).symm

/-- A call stops at the first fault among its arguments. -/
theorem value_call_of_error {f : MathFunction} {before after : List Expr} {e : Expr}
    {vs : List Float} {fault : Fault} (hbefore : valueAll lastResult before = .ok vs)
    (he : value lastResult e = .error fault) :
    value lastResult (.call f (before ++ e :: after)) = .error fault := by
  rw [value, valueAll_append_cons_error hbefore he]
  rfl

/-! ## One step of the work -/

/-- A leaf is not made of operands. -/
def IsLeaf : Expr → Prop
  | number _ | pi | answer => True
  | _ => False

/-- The steps of the evaluation that are no fault, on the tasks and the values. -/
inductive Step (lastResult : Float) : List Task × List Float → List Task × List Float → Prop where
  | node {e : Expr} {first : List Task} (tasks : List Task) (values : List Float) :
      expand lastResult e = .ok (.inl first) →
      Step lastResult (.evaluate e :: tasks, values) (first ++ tasks, values)
  | leaf {e : Expr} {v : Float} (tasks : List Task) (values : List Float) :
      expand lastResult e = .ok (.inr v) →
      Step lastResult (.evaluate e :: tasks, values) (tasks, v :: values)
  | combine {e : Expr} {values after : List Float} (tasks : List Task) :
      combine e values = .ok after →
      Step lastResult (.combine e :: tasks, values) (tasks, after)

/-- The work goes on from where a step leads. -/
theorem Step.run_eq {state next : List Task × List Float} (h : Step lastResult state next) :
    run lastResult state.1 state.2 = run lastResult next.1 next.2 := by
  cases h with
  | node tasks values hexpand => exact run_evaluate_node hexpand tasks values
  | leaf tasks values hexpand => exact run_evaluate_leaf hexpand tasks values
  | combine tasks hcombine => rw [run_combine, hcombine, Except.bind]

/-- Where tasks are left there is a step, or the work ends with a fault. -/
theorem exists_step_or_error (task : Task) (tasks : List Task) (values : List Float) :
    (∃ next, Step lastResult (task :: tasks, values) next) ∨
      ∃ fault, run lastResult (task :: tasks) values = .error fault := by
  cases task with
  | evaluate e =>
    rcases hexpand : expand lastResult e with fault | first | v
    · exact .inr ⟨fault, run_evaluate_error hexpand tasks values⟩
    · exact .inl ⟨_, .node tasks values hexpand⟩
    · exact .inl ⟨_, .leaf tasks values hexpand⟩
  | combine e =>
    rcases hcombine : combine e values with fault | after
    · refine .inr ⟨fault, ?_⟩
      rw [run_combine, hcombine, Except.bind]
    · exact .inl ⟨_, .combine tasks hcombine⟩

/-- The tasks and values that the evaluation of a tree comes to. -/
def Reaches (lastResult : Float) (e : Expr) (tasks : List Task) (values : List Float) : Prop :=
  Relation.ReflTransGen (Step lastResult) ([.evaluate e], []) (tasks, values)

/-! ## Tasks find their values -/

/-- With so many values every task finds its operands, and a single value is left. -/
def Supplied : List Task → Nat → Prop
  | [], n => n = 1
  | .evaluate _ :: tasks, n => Supplied tasks (n + 1)
  | .combine e :: tasks, n => ¬e.IsLeaf ∧ ∃ m, n = m + e.operands.length ∧ Supplied tasks (m + 1)

/-- Trees that are evaluated supply a value each. -/
theorem supplied_map_evaluate (es : List Expr) (tasks : List Task) (n : Nat) :
    Supplied (es.map .evaluate ++ tasks) n ↔ Supplied tasks (n + es.length) := by
  induction es generalizing n with
  | nil => rfl
  | cons e es ih =>
    have hlength : n + 1 + es.length = n + (e :: es).length := by
      rw [List.length_cons]
      omega
    rw [← hlength]
    exact ih (n + 1)

/-- A leaf does not come down to tasks. -/
theorem not_isLeaf_of_expand {e : Expr} {first : List Task}
    (h : expand lastResult e = .ok (.inl first)) : ¬e.IsLeaf := by
  intro hleaf
  cases e with
  | number v =>
    simp only [expand] at h
    cases hv : finite .literal v <;> rw [hv] at h <;> cases h
  | pi => cases h
  | answer => cases h
  | negate e => exact hleaf
  | binary op l r => exact hleaf
  | call f args => exact hleaf

/-- Combining a node puts one value in the place of its operands. -/
theorem length_of_combine {e : Expr} {values after : List Float} {m : Nat}
    (h : combine e values = .ok after) (hlength : values.length = m + e.operands.length) :
    after.length = m + 1 := by
  cases e with
  | number v => cases h
  | pi => cases h
  | answer => cases h
  | negate e =>
    match values with
    | [] => cases h
    | a :: values =>
      cases h
      exact hlength
  | binary op l r =>
    match values with
    | [] => cases h
    | [b] => cases h
    | b :: a :: values =>
      obtain ⟨v, -, hafter⟩ := Postfix.bind_eq_ok_iff.1 h
      cases hafter
      simp only [operands, List.length_cons, List.length_nil] at hlength ⊢
      omega
  | call f args =>
    have hlength : values.length = m + args.length := hlength
    have htake : takeArguments args.length values =
        some ((values.take args.length).reverse, values.drop args.length) := by
      have hlong : ¬(values.take args.length).length < args.length := by
        rw [List.length_take]
        omega
      rw [takeArguments, if_neg hlong]
    rw [combine, htake] at h
    obtain ⟨v, -, hafter⟩ := Postfix.bind_eq_ok_iff.1 h
    cases hafter
    rw [List.length_cons, List.length_drop]
    omega

/-- Every step keeps the tasks supplied. -/
theorem Step.supplied {state next : List Task × List Float} (h : Step lastResult state next)
    (hs : Supplied state.1 state.2.length) : Supplied next.1 next.2.length := by
  cases h with
  | @node e first tasks values hexpand =>
    rw [eq_of_expand hexpand, List.append_assoc, supplied_map_evaluate]
    exact ⟨not_isLeaf_of_expand hexpand, values.length, rfl, hs⟩
  | leaf tasks values hexpand => exact hs
  | combine tasks hcombine =>
    obtain ⟨-, m, hlength, htasks⟩ := hs
    rw [length_of_combine hcombine hlength]
    exact htasks

/-- Whatever the evaluation of a tree comes to is supplied. -/
theorem Reaches.supplied {e : Expr} {tasks : List Task} {values : List Float}
    (h : Reaches lastResult e tasks values) : Supplied tasks values.length := by
  -- The first state is a single tree without values; the invariant is carried along the steps.
  have hinvariant : ∀ state, Relation.ReflTransGen (Step lastResult) ([.evaluate e], []) state →
      Supplied state.1 state.2.length := by
    intro state hreach
    induction hreach with
    | refl => rfl
    | tail _ hstep ih => exact hstep.supplied ih
  exact hinvariant _ h

/-- Whatever the evaluation of a tree comes to has the same answer. -/
theorem Reaches.run_eq {e : Expr} {tasks : List Task} {values : List Float}
    (h : Reaches lastResult e tasks values) :
    run lastResult [.evaluate e] [] = run lastResult tasks values := by
  have hinvariant : ∀ state, Relation.ReflTransGen (Step lastResult) ([.evaluate e], []) state →
      run lastResult [.evaluate e] [] = run lastResult state.1 state.2 := by
    intro state hreach
    induction hreach with
    | refl => rfl
    | tail _ hstep ih => rw [ih, hstep.run_eq]
  exact hinvariant _ h

/--
The evaluation over tasks answers what the recursive definition does. A call stops at the first
fault among its arguments, refuses if it has too few, and ignores those beyond its need. On the way
a node that is combined is no leaf and finds the values of all its operands; where tasks are left
there is a step or a fault, and behind the last task a single value is left, which is the answer.
-/
theorem eval_eq_value_without_stalling (lastResult : Float) (e : Expr) :
    eval lastResult e = value lastResult e ∧
      (∀ f args, e = .call f args →
        (∀ vs, valueAll lastResult args = .ok vs →
          eval lastResult e =
            if vs.length < f.arity then .error (.malformed (.argumentMissing f))
            else f.apply (vs.take f.arity)) ∧
        ∀ before arg after vs fault, args = before ++ arg :: after →
          valueAll lastResult before = .ok vs → value lastResult arg = .error fault →
          eval lastResult e = .error fault) ∧
      ∀ tasks values, Reaches lastResult e tasks values →
        (∀ node rest, tasks = .combine node :: rest →
          ¬node.IsLeaf ∧ node.operands.length ≤ values.length) ∧
        (∀ task rest, tasks = task :: rest →
          (∃ next, Step lastResult (tasks, values) next) ∨
            ∃ fault, eval lastResult e = .error fault) ∧
        (tasks = [] → ∃ v, values = [v] ∧ eval lastResult e = .ok v) := by
  have heval := eval_eq_value lastResult e
  refine ⟨heval, ?_, fun tasks values hreach => ⟨?_, ?_, ?_⟩⟩
  · rintro f args rfl
    refine ⟨fun vs hvs => ?_, ?_⟩
    · rw [heval, value_call_of_valueAll hvs]
    · rintro before arg after vs fault rfl hbefore harg
      rw [heval, value_call_of_error hbefore harg]
  · rintro node rest rfl
    obtain ⟨hnode, m, hlength, -⟩ := hreach.supplied
    refine ⟨hnode, ?_⟩
    omega
  · rintro task rest rfl
    rcases exists_step_or_error task rest values with hstep | ⟨fault, hfault⟩
    · exact .inl hstep
    · refine .inr ⟨fault, ?_⟩
      rw [eval, hreach.run_eq, hfault]
  · rintro rfl
    have hsingle : values.length = 1 := hreach.supplied
    obtain ⟨v, rfl⟩ := List.length_eq_one_iff.1 hsingle
    refine ⟨v, rfl, ?_⟩
    rw [eval, hreach.run_eq, run]

/-- A root with an argument too many finds both of its operands and ignores the second. -/
theorem eval_root_without_stalling :
    let args : List Expr := [.number 9, .pi]
    let e : Expr := .call .sqrt args
    e = .call .sqrt args ∧ valueAll 0 args = .ok [9, piValue] ∧ eval 0 e = .ok 3 ∧
      Reaches 0 e [.combine e] [piValue, 9] ∧ e.operands.length ≤ [piValue, 9].length := by
  intro args e
  have hargs : valueAll 0 args = .ok [9, piValue] := rfl
  have hroot : MathFunction.sqrt.apply [9] = .ok 3 := eq_ok_of_toOption (by decide +kernel)
  have hreach : Reaches 0 e [.combine e] [piValue, 9] := by
    refine .head (.node [] [] rfl) (.head (.leaf _ [] ?_) (.single (.leaf _ [9] rfl)))
    rfl
  have hwork := eval_eq_value_without_stalling 0 e
  refine ⟨rfl, hargs, ?_, hreach, ((hwork.2.2 _ _ hreach).1 e [] rfl).2⟩
  rw [(hwork.2.1 _ _ rfl).1 _ hargs]
  exact hroot

end Expr

end SciCalc
