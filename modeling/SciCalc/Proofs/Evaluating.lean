import SciCalc.Proofs.Encodings
import SciCalc.Proofs.Lexing
import SciCalc.Proofs.Parsing
import SciCalc.Proofs.Preparing

/-!
# Evaluating a text

The evaluation of a text in two halves: the text has a tree or is malformed, and the tree has a
value or a fault. Settling comes last and never fails, and the postfix tokens that the working shows
are the listing of the tree.
-/

set_option autoImplicit false

namespace SciCalc

/-- The tree of a text, with its angles read in a mode. -/
def Expr.ofText (mode : AngleMode) (source : String) : Except Malformation Expr :=
  Expr.ofInfix (Token.prepare mode (Token.lex source))

/-- The value of a text before it is settled. -/
def rawValue (source : String) (context : Context) : Except Fault Float := do
  let tree ← (Expr.ofText context.angles source).mapError .malformed
  tree.eval context.lastResult

/-- What is malformed is a fault. -/
@[simp] theorem mapError_malformed_error {α : Type} (m : Malformation) :
    (Except.error m : Except Malformation α).mapError Fault.malformed = .error (.malformed m) := rfl

/-- What is well formed stays as it is. -/
@[simp] theorem mapError_malformed_ok {α : Type} (a : α) :
    (Except.ok a : Except Malformation α).mapError Fault.malformed = .ok a := rfl

/-- The computed value is the value. -/
theorem Expr.eval_eq_value (lastResult : Float) (e : Expr) :
    eval lastResult e = value lastResult e := by
  rw [eval, run_evaluate]
  cases value lastResult e with
  | error fault => rfl
  | ok v =>
    simp only [Except.bind]
    rw [run]

/-- The tree of a text is read from its postfix tokens. -/
theorem Expr.ofText_eq (mode : AngleMode) (source : String) :
    ofText mode source =
      (Postfix.ofInfix (Token.prepare mode (Token.lex source))).bind ofPostfix := rfl

/-- The working of a text that stands for a tree with a value. -/
def Working.ofTree (mode : AngleMode) (source : String) (e : Expr) (raw : Float) : Working where
  source := Text.trim source
  tokens := Token.listText (Token.prepare mode (Token.lex source))
  postfixTokens := Token.listText e.listing
  rawValue := Number.text raw
  note := standingNote

/-- The working shows the prepared tokens of the text. -/
@[simp] theorem Working.ofTree_tokens (mode : AngleMode) (source : String) (e : Expr)
    (raw : Float) :
    (ofTree mode source e raw).tokens = Token.listText (Token.prepare mode (Token.lex source)) :=
  rfl

/-- A text is evaluated by its tree, whose value is settled and whose listing is shown. -/
theorem evaluateWithWorking_eq (source : String) (context : Context) :
    evaluateWithWorking source context =
      ((Expr.ofText context.angles source).mapError .malformed).bind fun e =>
        (e.eval context.lastResult).map fun raw =>
          (context.rounding.settle raw, Working.ofTree context.angles source e raw) := by
  simp only [evaluateWithWorking, Expr.ofText_eq, Token.inRadians_ofText]
  by_cases htrim : Text.trim source = ""
  · have hlex : Token.lex source = [] := by
      rw [← Token.lex_trim, htrim]
      rfl
    have hprepare : Token.prepare context.angles [] = [] := by
      cases context.angles <;> rfl
    rw [if_pos htrim, hlex, hprepare]
    rfl
  · rw [if_neg htrim, Token.lex_trim]
    rcases hoperands : Postfix.ofInfix (Token.prepare context.angles (Token.lex source))
      with fault | listing
    · rfl
    rcases htree : Expr.ofPostfix listing with fault | e
    · simp [htree, bind, Except.bind]
    have hinfix : Expr.ofInfix (Token.prepare context.angles (Token.lex source)) = .ok e := by
      rw [Expr.ofInfix, hoperands]
      exact htree
    obtain rfl : listing = e.listing :=
      Except.ok.inj (hoperands.symm.trans (Expr.ofInfix_eq_ok_iff_listing.1 hinfix).1)
    rcases heval : e.eval context.lastResult with fault | raw
    · simp [htree, heval, bind, Except.bind, Except.map]
    · simp [htree, heval, Working.ofTree, bind, Except.bind, Except.map, pure, Except.pure]

/-- Evaluating is settling the value of the tree. -/
theorem evaluate_eq (source : String) (context : Context) :
    evaluate source context = (rawValue source context).map context.rounding.settle := by
  rw [evaluate, evaluateWithWorking_eq, rawValue]
  rcases Expr.ofText context.angles source with fault | e
  · rfl
  rcases heval : e.eval context.lastResult with fault | raw
  · simp [heval, bind, Except.bind, Except.map]
  · simp [heval, bind, Except.bind, Except.map, pure, Except.pure]

/-- Texts with the same tree, or the same fault, have the same value. -/
theorem evaluate_congr {source source' : String} {context : Context}
    (h : Expr.ofText context.angles source = Expr.ofText context.angles source') :
    evaluate source context = evaluate source' context := by
  rw [evaluate_eq, evaluate_eq, rawValue, rawValue, h]

/-- Texts with the same tokens have the same value, or the same fault. -/
theorem evaluate_of_lex_eq {source source' : String} (h : Token.lex source = Token.lex source')
    (context : Context) : evaluate source context = evaluate source' context :=
  evaluate_congr (by rw [Expr.ofText, Expr.ofText, h])

/-- The evaluation of a text succeeds with the settled value and the working of its tree. -/
theorem evaluateWithWorking_eq_ok_iff {source : String} {context : Context} {v : Float}
    {w : Working} :
    evaluateWithWorking source context = .ok (v, w) ↔
      ∃ e raw, Expr.ofText context.angles source = .ok e ∧
        e.value context.lastResult = .ok raw ∧ v = context.rounding.settle raw ∧
          w = Working.ofTree context.angles source e raw := by
  rw [evaluateWithWorking_eq]
  rcases Expr.ofText context.angles source with fault | e
  · simp [Except.bind]
  rcases heval : e.eval context.lastResult with fault | raw
  · rw [Expr.eval_eq_value] at heval
    simp [heval, Expr.eval_eq_value, Except.bind, Except.map]
  · rw [Expr.eval_eq_value] at heval
    simp [heval, Expr.eval_eq_value, Except.bind, Except.map, eq_comm]

/-- A text has a value exactly if it has a tree and the tree has that value. -/
theorem rawValue_eq_ok_iff {source : String} {context : Context} {v : Float} :
    rawValue source context = .ok v ↔
      ∃ e, Expr.ofText context.angles source = .ok e ∧ e.value context.lastResult = .ok v := by
  simp only [rawValue]
  rcases Expr.ofText context.angles source with fault | e
  · simp [bind, Except.bind]
  · simp [bind, Except.bind, Expr.eval_eq_value]

/-- A finite number is taken as it is, and no other. -/
theorem finite_eq_ok_iff {origin : Origin} {x y : Float} :
    finite origin x = .ok y ↔ x.isFinite = true ∧ y = x := by
  rw [Binary64.isFinite_eq, finite]
  cases x.isNaN <;> cases x.isInf <;> simp [eq_comm]

/-- What succeeds with a result is that result. -/
theorem eq_ok_of_toOption {ε α : Type} {x : Except ε α} {a : α} (h : x.toOption = some a) :
    x = .ok a := by
  cases x with
  | error fault => cases h
  | ok b =>
    cases h
    rfl

/-- The value of a square. -/
theorem Expr.value_square_eq_ok_iff {lastResult : Float} {e : Expr} {v : Float} :
    value lastResult (.binary .raise e (.number 2)) = .ok v ↔
      ∃ a, value lastResult e = .ok a ∧ (Float.pow a 2).isFinite = true ∧ v = Float.pow a 2 := by
  have htwo : value lastResult (.number 2) = .ok 2 := rfl
  have hnegative : ((2 : Float) < 0) = False := by decide +kernel
  rw [value, htwo]
  rcases value lastResult e with fault | a
  · simp [bind, Except.bind]
  · simp [bind, Except.bind, Operator.apply, hnegative, finite_eq_ok_iff]

end SciCalc
