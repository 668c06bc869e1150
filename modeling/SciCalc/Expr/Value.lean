import SciCalc.Combinatorics
import SciCalc.Expr

/-!
# The value of an expression

`Expr.value` says what an expression is worth: operands from left to right, then the node, and the
first fault in that order is the answer. `Expr.eval` computes it over an explicit list of tasks and
a list of values, so that the depth of the tree uses no call stack. `run_evaluate` ties the two: a
tree evaluated before other tasks puts its value on top, or stops at its first fault.
-/

set_option autoImplicit false

namespace SciCalc

/-- The number π. -/
def piValue : Float := 3.141592653589793

/-- The result of an operator, refused where it is no finite number. -/
def Operator.apply (op : Operator) (a b : Float) : Except Fault Float :=
  match op with
  | .add => finite (.operator op) (a + b)
  | .subtract => finite (.operator op) (a - b)
  | .multiply => finite (.operator op) (a * b)
  | .divide =>
    if b == 0 then .error (.numeric .divisionByZero) else finite (.operator op) (a / b)
  | .raise =>
    if a == 0 && b < 0 then .error (.numeric .zeroToNegativePower)
    else finite (.operator op) (Float.pow a b)

namespace MathFunction

/-- The result of a function of one argument. -/
def applyOne (f : MathFunction) (x : Float) : Except Fault Float :=
  match f with
  | sqrt => finite (.function f) x.sqrt
  | exp => finite (.function f) x.exp
  | log => finite (.function f) x.log10
  | ln => finite (.function f) x.log
  | sin => finite (.function f) x.sin
  | cos => finite (.function f) x.cos
  | tan => finite (.function f) x.tan
  | asin => finite (.function f) x.asin
  | acos => finite (.function f) x.acos
  | atan => finite (.function f) x.atan
  | sinh => finite (.function f) x.sinh
  | cosh => finite (.function f) x.cosh
  | tanh => finite (.function f) x.tanh
  | factorial => Combinatorics.factorial x
  | permutations | combinations => .error (.malformed (.argumentMissing f))

/-- The result of a function; arguments beyond those it needs are ignored. -/
def apply : MathFunction → List Float → Except Fault Float
  | permutations, n :: r :: _ => Combinatorics.permutations n r
  | combinations, n :: r :: _ => Combinatorics.combinations n r
  | f, x :: _ => f.applyOne x
  | f, [] => .error (.malformed (.argumentMissing f))

end MathFunction

namespace Expr

mutual

/-- The value of an expression, given the last result. -/
def value (lastResult : Float) : Expr → Except Fault Float
  | number v => finite .literal v
  | pi => .ok piValue
  | answer => .ok lastResult
  | negate e => do
    let a ← value lastResult e
    return -a
  | binary op l r => do
    let a ← value lastResult l
    let b ← value lastResult r
    op.apply a b
  | call f args => do
    let as ← valueAll lastResult args
    f.apply as

/-- The values of expressions, from left to right. -/
def valueAll (lastResult : Float) : List Expr → Except Fault (List Float)
  | [] => .ok []
  | e :: es => do
    let a ← value lastResult e
    let as ← valueAll lastResult es
    return a :: as

end

/-! ### Evaluation over explicit lists -/

/-- The operands of a node. -/
def operands : Expr → List Expr
  | number _ | pi | answer => []
  | negate e => [e]
  | binary _ l r => [l, r]
  | call _ args => args

/-- What is still to be done: evaluate a tree, or combine the values of its operands. -/
inductive Task where
  | evaluate (e : Expr)
  | combine (e : Expr)

/-- A bound on the steps that a task takes. -/
def Task.cost : Task → Nat
  | evaluate e => 2 * e.size
  | combine _ => 1

/-- A bound on the steps that all tasks take. -/
def costAll : List Task → Nat
  | [] => 0
  | t :: ts => t.cost + costAll ts

/-- The first task is counted apart. -/
@[simp] theorem costAll_cons (t : Task) (ts : List Task) :
    costAll (t :: ts) = t.cost + costAll ts := rfl

/-- Joined tasks cost what their parts cost. -/
@[simp] theorem costAll_append (ts us : List Task) :
    costAll (ts ++ us) = costAll ts + costAll us := by
  induction ts with
  | nil => simp [costAll]
  | cons t ts ih => simp [ih, Nat.add_assoc]

/-- Evaluating trees costs two steps for each of their nodes. -/
theorem costAll_map_evaluate (es : List Expr) :
    costAll (es.map .evaluate) = 2 * sizeAll es := by
  induction es with
  | nil => rfl
  | cons e es ih => simp [ih, sizeAll, Task.cost]; omega

/-- A tree has one more node than its operands. -/
theorem size_eq_sizeAll_operands (e : Expr) : e.size = sizeAll e.operands + 1 := by
  cases e <;> simp [size, operands, sizeAll]

/-- Takes the last values off, first argument first, if there are enough. -/
def takeArguments (count : Nat) (values : List Float) : Option (List Float × List Float) :=
  let last := values.take count
  if last.length < count then none else some (last.reverse, values.drop count)

/-- The tasks that evaluating a tree comes down to, or the value of a leaf. -/
def expand (lastResult : Float) : Expr → Except Fault (List Task ⊕ Float)
  | number v => do
    let v ← finite .literal v
    return .inr v
  | pi => .ok (.inr piValue)
  | answer => .ok (.inr lastResult)
  | e => .ok (.inl (e.operands.map .evaluate ++ [.combine e]))

/-- The values after a node has been combined from those on top, which are kept last first. -/
def combine : Expr → List Float → Except Fault (List Float)
  | negate _, a :: values => .ok (-a :: values)
  | binary op _ _, b :: a :: values => do
    let v ← op.apply a b
    return v :: values
  | call f args, values =>
    match takeArguments args.length values with
    | none => .error (.malformed (.argumentMissing f))
    | some (args, rest) => do
      let v ← f.apply args
      return v :: rest
  | negate _, _ | binary _ _ _, _ => .error (.malformed .valueMissing)
  | number _, _ | pi, _ | answer, _ => .error (.malformed .unexpectedLeaf)

/-- Only nodes with tasks of their own come down to tasks. -/
theorem eq_of_expand {lastResult : Float} {e : Expr} {ts : List Task}
    (h : expand lastResult e = .ok (.inl ts)) :
    ts = e.operands.map .evaluate ++ [.combine e] := by
  cases e with
  | number v =>
    simp only [expand] at h
    cases hv : finite .literal v <;> rw [hv] at h <;> cases h
  | pi => cases h
  | answer => cases h
  | negate e => cases h; rfl
  | binary op l r => cases h; rfl
  | call f args => cases h; rfl

/-- Expanding a tree leaves less to do. -/
theorem costAll_lt_of_expand {lastResult : Float} {e : Expr} {ts : List Task}
    (h : expand lastResult e = .ok (.inl ts)) : costAll ts < (Task.evaluate e).cost := by
  have hsize := e.size_eq_sizeAll_operands
  rw [eq_of_expand h, costAll_append, costAll_map_evaluate]
  simp only [costAll, Task.cost]
  omega

/-- A tree has a node. -/
theorem size_pos (e : Expr) : 0 < e.size := by cases e <;> simp [size]

/-- Works off the tasks in order, over values that are kept last first. -/
def run (lastResult : Float) : List Task → List Float → Except Fault (List Float)
  | [], values => .ok values
  | .evaluate e :: tasks, values =>
    match _h : expand lastResult e with
    | .error fault => .error fault
    | .ok (.inl first) => run lastResult (first ++ tasks) values
    | .ok (.inr v) => run lastResult tasks (v :: values)
  | .combine e :: tasks, values =>
    match combine e values with
    | .error fault => .error fault
    | .ok values => run lastResult tasks values
termination_by tasks => costAll tasks
decreasing_by
  · have := costAll_lt_of_expand _h
    simp
    omega
  · have := size_pos e
    simp [Task.cost]
    omega
  · simp [Task.cost]

/-- The value of an expression, computed without recursion into the tree. -/
def eval (lastResult : Float) (e : Expr) : Except Fault Float :=
  match run lastResult [.evaluate e] [] with
  | .error fault => .error fault
  | .ok [v] => .ok v
  | .ok _ => .error (.malformed .incomplete)

/-! ### The two agree -/

/-- A leaf puts its value on top. -/
theorem run_evaluate_leaf {lastResult : Float} {e : Expr} {v : Float}
    (h : expand lastResult e = .ok (.inr v)) (tasks : List Task) (values : List Float) :
    run lastResult (.evaluate e :: tasks) values = run lastResult tasks (v :: values) := by
  rw [run]
  split <;> simp_all

/-- Any other node puts its own tasks before those that wait. -/
theorem run_evaluate_node {lastResult : Float} {e : Expr} {first : List Task}
    (h : expand lastResult e = .ok (.inl first)) (tasks : List Task) (values : List Float) :
    run lastResult (.evaluate e :: tasks) values = run lastResult (first ++ tasks) values := by
  rw [run]
  split <;> simp_all

/-- A tree that cannot be expanded ends the run with its fault. -/
theorem run_evaluate_error {lastResult : Float} {e : Expr} {fault : Fault}
    (h : expand lastResult e = .error fault) (tasks : List Task) (values : List Float) :
    run lastResult (.evaluate e :: tasks) values = .error fault := by
  rw [run]
  split <;> simp_all

/-- A node is combined from the values on top, or its fault ends the run. -/
theorem run_combine {lastResult : Float} (e : Expr) (tasks : List Task) (values : List Float) :
    run lastResult (.combine e :: tasks) values =
      (combine e values).bind fun values => run lastResult tasks values := by
  rw [run]
  cases combine e values <;> rfl

/-- The arguments on top are taken off again, first argument first. -/
theorem takeArguments_reverse_append (args values : List Float) :
    takeArguments args.length (args.reverse ++ values) = some (args, values) := by
  simp [takeArguments]

mutual

/-- Evaluating a tree before other tasks puts its value on top, or stops at its first fault. -/
theorem run_evaluate (lastResult : Float) (e : Expr) (tasks : List Task) (values : List Float) :
    run lastResult (.evaluate e :: tasks) values =
      (value lastResult e).bind fun v => run lastResult tasks (v :: values) := by
  match e with
  | number v =>
    cases h : finite .literal v with
    | error fault =>
      rw [run_evaluate_error (by rw [expand, h]; rfl)]
      simp [value, h, Except.bind]
    | ok v' =>
      rw [run_evaluate_leaf (by rw [expand, h]; rfl)]
      simp [value, h, Except.bind]
  | pi => rw [run_evaluate_leaf rfl]; rfl
  | answer => rw [run_evaluate_leaf rfl]; rfl
  | negate e =>
    have hnode : expand lastResult (.negate e) =
        .ok (.inl [.evaluate e, .combine (.negate e)]) := rfl
    rw [run_evaluate_node hnode, List.cons_append, run_evaluate lastResult e]
    rw [value]
    cases value lastResult e with
    | error fault => rfl
    | ok a =>
      simp only [Except.bind, bind, List.cons_append, List.nil_append]
      rw [run_combine]
      rfl
  | binary op l r =>
    have hnode : expand lastResult (.binary op l r) =
        .ok (.inl [.evaluate l, .evaluate r, .combine (.binary op l r)]) := rfl
    rw [run_evaluate_node hnode, List.cons_append, run_evaluate lastResult l]
    rw [value]
    cases value lastResult l with
    | error fault => rfl
    | ok a =>
      simp only [Except.bind, bind, List.cons_append, List.nil_append]
      rw [run_evaluate lastResult r]
      cases value lastResult r with
      | error fault => rfl
      | ok b =>
        simp only [Except.bind]
        rw [run_combine, combine]
        cases op.apply a b <;> rfl
  | call f args =>
    have hnode : expand lastResult (.call f args) =
        .ok (.inl (args.map .evaluate ++ [.combine (.call f args)])) := rfl
    rw [run_evaluate_node hnode, List.append_assoc, run_evaluateAll lastResult args]
    rw [value]
    cases h : valueAll lastResult args with
    | error fault => rfl
    | ok as =>
      have hl : args.length = as.length := length_of_valueAll lastResult args h
      simp only [Except.bind, bind, List.cons_append, List.nil_append]
      rw [run_combine, combine, hl, takeArguments_reverse_append]
      cases hf : f.apply as <;> simp [hf, bind, Except.bind, pure, Except.pure]

/-- Evaluating trees before other tasks puts their values on top, the last one first. -/
theorem run_evaluateAll (lastResult : Float) (es : List Expr) (tasks : List Task)
    (values : List Float) :
    run lastResult (es.map .evaluate ++ tasks) values =
      (valueAll lastResult es).bind fun vs => run lastResult tasks (vs.reverse ++ values) := by
  match es with
  | [] => rfl
  | e :: es =>
    rw [List.map_cons, List.cons_append, run_evaluate lastResult e, valueAll]
    cases value lastResult e with
    | error fault => rfl
    | ok v =>
      simp only [Except.bind, bind]
      rw [run_evaluateAll lastResult es]
      cases valueAll lastResult es with
      | error fault => rfl
      | ok vs => simp [Except.bind, pure, Except.pure]

/-- Every expression of a list gives one value. -/
theorem length_of_valueAll (lastResult : Float) (es : List Expr) {vs : List Float}
    (h : valueAll lastResult es = .ok vs) : es.length = vs.length := by
  match es with
  | [] => cases h; rfl
  | e :: es =>
    rw [valueAll] at h
    cases hv : value lastResult e with
    | error fault => rw [hv] at h; cases h
    | ok v =>
      cases hvs : valueAll lastResult es with
      | error fault => rw [hv, hvs] at h; cases h
      | ok rest =>
        rw [hv, hvs] at h
        cases h
        simp [length_of_valueAll lastResult es hvs]

end

end Expr

end SciCalc
