import SciCalc.Number.Text
import SciCalc.Text.Hex

/-!
# Scalars of TOML

The values of words: booleans, integers in four bases, floats, dates and times. Underscores may
stand between digits only, and a decimal number has no leading zero. A date or time is checked and
then forgotten, since nothing here asks for one.
-/

set_option autoImplicit false

namespace SciCalc.Toml

/-- A value that is no collection and no string. -/
inductive Scalar where
  | boolean (b : Bool)
  | integer (n : Int)
  | float (x : Float)
  | dateTime
deriving DecidableEq

namespace Scalar

/-! ### Numbers -/

/-- Digits without the underscores between them; an underscore has a digit on either side. -/
def ungroup? (isDigit : Char → Bool) : List Char → Option (List Char)
  | [] => none
  | [c] => if isDigit c then some [c] else none
  | c :: '_' :: cs => if isDigit c then (ungroup? isDigit cs).map (c :: ·) else none
  | c :: cs => if isDigit c then (ungroup? isDigit cs).map (c :: ·) else none

/-- The value of a digit of a base, which is at most sixteen. -/
def digitValue? (base : Nat) (c : Char) : Option Nat := (Text.hexValue? c).filter (· < base)

/-- The number that grouped digits of a base spell. -/
def natural? (base : Nat) (cs : List Char) : Option Nat :=
  (ungroup? (fun c => (digitValue? base c).isSome) cs).bind
    (List.foldlM (fun n c => (digitValue? base c).map (base * n + ·)) 0)

/-- Grouped decimal digits without a leading zero. -/
def decimalDigits? (cs : List Char) : Option (List Char) :=
  (ungroup? Char.isDigit cs).bind fun ds =>
    match ds with
    | '0' :: _ :: _ => none
    | _ => some ds

/-- Whether the characters are a sign and those behind it, or all of them without a sign. -/
def signed (cs : List Char) : Bool × List Char :=
  match cs with
  | '-' :: rest => (true, rest)
  | '+' :: rest => (false, rest)
  | _ => (false, cs)

/-- An integer that some machine type holds; larger ones are refused. -/
def boundedInteger (n : Int) : Option Scalar :=
  if -Int.pow 2 127 ≤ n ∧ n < Int.pow 2 128 then some (.integer n) else none

/-- An integer in base sixteen, eight or two behind its mark, or a decimal one. -/
def integer? (cs : List Char) : Option Scalar :=
  match cs with
  | '0' :: 'x' :: ds => (natural? 16 ds).bind fun n => boundedInteger n
  | '0' :: 'o' :: ds => (natural? 8 ds).bind fun n => boundedInteger n
  | '0' :: 'b' :: ds => (natural? 2 ds).bind fun n => boundedInteger n
  | _ =>
    let (negative, ds) := signed cs
    (decimalDigits? ds).bind fun ds =>
      let n : Int := Decimal.ofDigits ds
      boundedInteger (if negative then -n else n)

/-- Whether a character ends the whole part of a float. -/
def endsWhole (c : Char) : Bool := c == '.' || c == 'e' || c == 'E'

/-- An exponent part in the notation of numbers, empty where there is none. -/
def exponent? : List Char → Option (List Char)
  | [] => some []
  | c :: cs =>
    if c = 'e' ∨ c = 'E' then
      let (negative, ds) := signed cs
      (ungroup? Char.isDigit ds).map fun ds => 'e' :: (if negative then '-' :: ds else ds)
    else none

/-- A fraction and an exponent part in the notation of numbers. -/
def fraction? : List Char → Option (List Char)
  | '.' :: cs =>
    let digits := cs.takeWhile (!endsWhole ·)
    (ungroup? Char.isDigit digits).bind fun ds =>
      (exponent? (cs.dropWhile (!endsWhole ·))).map fun e => '.' :: (ds ++ e)
  | cs => exponent? cs

/-- A float, which has a fraction or an exponent; one too large to be finite is refused. -/
def float? (cs : List Char) : Option Scalar :=
  let (negative, body) := signed cs
  if body = "inf".toList ∨ body = "nan".toList then
    (Number.unsigned? negative body).map .float
  else do
    let whole ← decimalDigits? (body.takeWhile (!endsWhole ·))
    let rest ← fraction? (body.dropWhile (!endsWhole ·))
    let x ← Number.unsigned? negative (whole ++ rest)
    if rest.isEmpty || x.isInf then none else some (.float x)

/-! ### Dates and times -/

/-- The number that exactly `count` digits at the start spell, and what follows them. -/
def fixedDigits? (count : Nat) (cs : List Char) : Option (Nat × List Char) :=
  let ds := cs.take count
  if ds.length = count ∧ ds.all Char.isDigit then some (Decimal.ofDigits ds, cs.drop count)
  else none

/-- What follows a given character at the start. -/
def after? (c : Char) : List Char → Option (List Char)
  | x :: cs => if x = c then some cs else none
  | [] => none

/-- The days of a month. -/
def daysIn (year month : Nat) : Nat :=
  let leap := year % 4 = 0 ∧ (year % 100 ≠ 0 ∨ year % 400 = 0)
  if month = 2 then if leap then 29 else 28
  else if month ∈ [4, 6, 9, 11] then 30 else 31

/-- What follows a date at the start. -/
def date? (cs : List Char) : Option (List Char) := do
  let (year, cs) ← fixedDigits? 4 cs
  let (month, cs) ← fixedDigits? 2 (← after? '-' cs)
  let (day, cs) ← fixedDigits? 2 (← after? '-' cs)
  if 1 ≤ month ∧ month ≤ 12 ∧ 1 ≤ day ∧ day ≤ daysIn year month then some cs else none

/-- What follows the fraction of a second at the start, if there is one. -/
def secondFraction? : List Char → Option (List Char)
  | '.' :: c :: cs => if c.isDigit then some (cs.dropWhile Char.isDigit) else none
  | '.' :: [] => none
  | cs => some cs

/-- What follows the seconds at the start, which may be left out. -/
def seconds? (cs : List Char) : Option (List Char) :=
  match cs with
  | ':' :: cs => do
    let (second, cs) ← fixedDigits? 2 cs
    if second ≤ 60 then secondFraction? cs else none
  | _ => some cs

/-- What follows a time of day at the start. -/
def time? (cs : List Char) : Option (List Char) := do
  let (hour, cs) ← fixedDigits? 2 cs
  let (minute, cs) ← fixedDigits? 2 (← after? ':' cs)
  if hour ≤ 23 ∧ minute ≤ 59 then seconds? cs else none

/-- Whether the characters are an offset from universal time, or nothing. -/
def isOffset : List Char → Bool
  | [] => true
  | ['Z'] => true
  | ['z'] => true
  | sign :: cs =>
    (sign == '+' || sign == '-') &&
    match fixedDigits? 2 cs with
    | some (hour, ':' :: cs) =>
      match fixedDigits? 2 cs with
      | some (minute, []) => hour ≤ 23 && minute ≤ 59
      | _ => false
    | _ => false

/-- Whether the characters are a date alone. -/
def isDate (cs : List Char) : Bool := date? cs == some []

/-- Whether the characters are a date, a time of day or both. -/
def isDateTime (cs : List Char) : Bool :=
  time? cs == some [] ||
  match date? cs with
  | some [] => true
  | some (c :: cs) =>
    (c == 'T' || c == 't' || c == ' ') && (time? cs).any isOffset
  | none => false

/-- The scalar that a word spells. -/
def ofWord? (cs : List Char) : Option Scalar :=
  if cs = "true".toList then some (.boolean true)
  else if cs = "false".toList then some (.boolean false)
  else if isDateTime cs then some .dateTime
  else (integer? cs).or (float? cs)

end Scalar

end SciCalc.Toml
