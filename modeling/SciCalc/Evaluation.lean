import SciCalc.Expr.OfPostfix
import SciCalc.Expr.Value
import SciCalc.Postfix
import SciCalc.Token.Brackets
import SciCalc.Token.Degrees
import SciCalc.Token.Lexer
import SciCalc.Token.Mark
import SciCalc.Token.Percent
import SciCalc.Token.Product

/-!
# Evaluation of a text

A text is read into tokens, the tokens are prepared until nothing but the plain language of infix
expressions is left, and the tree of those is evaluated and settled. The working shows the steps.
-/

set_option autoImplicit false

namespace SciCalc

/-- The tokens of a text on their way to the plain language, each field made from the one before. -/
structure Preparation where
  lexed : List Token
  withoutPercent : List Token
  closed : List Token
  withProducts : List Token
  withoutMarks : List Token
  inRadians : List Token

/-- The preparation of a text, with its angles read in a mode. -/
def Preparation.ofText (mode : AngleMode) (source : String) : Preparation :=
  let lexed := Token.lex source
  let withoutPercent := Token.resolvePercent lexed
  let closed := Token.closeBrackets withoutPercent
  let withProducts := Token.insertProducts closed
  let withoutMarks := Token.expandMarks withProducts
  let inRadians := Token.convertAngles mode withoutMarks
  { lexed, withoutPercent, closed, withProducts, withoutMarks, inRadians }

/-- The steps of an evaluation, as texts. -/
structure Working where
  /-- The text, without the blanks at its ends. -/
  source : String
  /-- The prepared tokens. -/
  tokens : String
  postfixTokens : String
  /-- The value before it is settled. -/
  rawValue : String
  note : String
deriving DecidableEq

/-- The note under every working. -/
def Working.standingNote : String :=
  "Pipeline: jetons → parenthèses → × implicite → ! P C → degrés → RPN → Expr → f64 → arrondi."

/-- The settled value of a text and the working. -/
def evaluateWithWorking (source : String) (context : Context) : Except Fault (Float × Working) := do
  let trimmed := Text.trim source
  if trimmed = "" then .error (.malformed .emptyInput)
  let tokens := (Preparation.ofText context.angles trimmed).inRadians
  let postfixTokens ← (Postfix.ofInfix tokens).mapError .malformed
  let tree ← (Expr.ofPostfix postfixTokens).mapError .malformed
  let raw ← tree.eval context.lastResult
  return (context.rounding.settle raw,
    { source := trimmed
      tokens := Token.listText tokens
      postfixTokens := Token.listText postfixTokens
      rawValue := Number.text raw
      note := Working.standingNote })

/-- The settled value of a text. -/
def evaluate (source : String) (context : Context) : Except Fault Float := do
  let (v, _) ← evaluateWithWorking source context
  return v

end SciCalc
