import SciCalc.Text.Blank
import SciCalc.Token

/-!
# Reading tokens from text

Blanks separate, signs stand for themselves, and words, numerals and the double star grow as long
as they can. The reader goes through the text once and holds the token that may still grow, so a
blank or a sign ends it and nothing else of the past matters. Text that is no token is kept as an
unknown one; the reader itself never fails.
-/

set_option autoImplicit false

namespace SciCalc.Token

/-- The start of a token that the next character may still extend; words and numerals backwards. -/
inductive Held where
  | nothing
  | word (backwards : List Char)
  | numeral (backwards : List Char)
  | star
  | doubleStar

/-- Whether a character starts a word: a small letter of the Latin alphabet or `_`. -/
def startsWord (c : Char) : Bool := c.isLower || c == '_'

/-- Whether a character continues a word: a Latin letter, a digit or `_`. -/
def continuesWord (c : Char) : Bool := c.isAlphanum || c == '_'

/-- Whether a character belongs to a numeral: a digit or a point. -/
def inNumeral (c : Char) : Bool := c.isDigit || c == '.'

/-- The tokens of a character that is complete by itself. -/
def ofSign? : Char → Option (List Token)
  | '(' => some [opening]
  | ')' => some [closing]
  | ',' => some [comma]
  | '+' => some [operator .add]
  | '-' => some [operator .subtract]
  | '−' => some [operator .subtract]
  | '×' => some [operator .multiply]
  | '/' => some [operator .divide]
  | '÷' => some [operator .divide]
  | '^' => some [operator .raise]
  | '%' => some [percent]
  | '!' => some [factorialMark]
  | 'P' => some [permutationMark]
  | 'C' => some [combinationMark]
  | 'π' => some [pi]
  | '√' => some [function .sqrt]
  | '²' => some [operator .raise, number 2]
  | _ => none

/-- The token of a word, whose letters count as small ones. -/
def ofWord (cs : List Char) : Token :=
  let word := String.ofList (cs.map Char.toLower)
  if word = "pi" then pi
  else if word = "ans" then answer
  else match MathFunction.ofName? word with
    | some f => function f
    | none => unknown (String.ofList cs)

/-- The token of a run of digits and points; one that spells no number is unknown as a whole. -/
def ofNumeral (cs : List Char) : Token :=
  match Number.ofChars? cs with
  | some v => number v
  | none => unknown (String.ofList cs)

namespace Held

/-- The tokens of what is held, once nothing extends it. -/
def tokens : Held → List Token
  | nothing => []
  | word cs => [ofWord cs.reverse]
  | numeral cs => [ofNumeral cs.reverse]
  | star => [operator .multiply]
  | doubleStar => [operator .raise]

/-- What is held after a character that extends it. -/
def extend? : Held → Char → Option Held
  | word cs, c => if continuesWord c then some (word (c :: cs)) else none
  | numeral cs, c => if inNumeral c then some (numeral (c :: cs)) else none
  | star, c => if c = '*' then some doubleStar else none
  | _, _ => none

end Held

/-- What a character that extends nothing completes, and what it leaves held. -/
def start (c : Char) : List Token × Held :=
  if Text.isBlank c then ([], .nothing)
  else match ofSign? c with
    | some ts => (ts, .nothing)
    | none =>
      if c = '*' then ([], .star)
      else if startsWord c then ([], .word [c])
      else if inNumeral c then ([], .numeral [c])
      else ([unknown (String.ofList [c])], .nothing)

/-- The tokens of what is held followed by the characters. -/
def lexFrom : Held → List Char → List Token
  | held, [] => held.tokens
  | held, c :: cs =>
    match held.extend? c with
    | some grown => lexFrom grown cs
    | none => held.tokens ++ (start c).1 ++ lexFrom (start c).2 cs

/-- The tokens of a text. -/
def lex (s : String) : List Token := lexFrom .nothing s.toList

/-- No text has no tokens. -/
theorem lexFrom_nothing_nil : lexFrom .nothing [] = [] := rfl

/-- A character that cannot extend what is held splits the reading there. -/
theorem lexFrom_of_extend?_eq_none {held : Held} {c : Char} (cs : List Char)
    (h : held.extend? c = none) :
    lexFrom held (c :: cs) = held.tokens ++ lexFrom .nothing (c :: cs) := by
  have hn : Held.extend? .nothing c = none := rfl
  simp [lexFrom, h, hn, Held.tokens, List.append_assoc]

end SciCalc.Token
