import SciCalc.Text.Hex

/-!
# Lists of strings in JSON

The stored form of the history: a JSON array of strings. Writing is compact and escapes quotes,
backslashes and control characters only. Reading takes any JSON array of strings, with blanks
between its parts and any escapes in its strings, and nothing else: no other elements, no trailing
comma, no bare control character, no half of a surrogate pair.
-/

set_option autoImplicit false

namespace SciCalc.History.StringList

/-! ### Writing -/

/-- A character inside a string. -/
def escapeChar (c : Char) : List Char :=
  if c = '"' then ['\\', '"']
  else if c = '\\' then ['\\', '\\']
  else if c = '\x08' then ['\\', 'b']
  else if c = '\t' then ['\\', 't']
  else if c = '\n' then ['\\', 'n']
  else if c = '\x0c' then ['\\', 'f']
  else if c = '\r' then ['\\', 'r']
  else if c.toNat < 0x20 then
    ['\\', 'u', '0', '0', Text.hexDigit (c.toNat / 16), Text.hexDigit (c.toNat % 16)]
  else [c]

/-- A string in its quotes. -/
def encodeString (cs : List Char) : List Char := '"' :: (cs.flatMap escapeChar ++ ['"'])

/-- The elements after the first, each behind its comma. -/
def encodeRest : List (List Char) → List Char
  | [] => [']']
  | s :: ss => ',' :: (encodeString s ++ encodeRest ss)

/-- A list of strings, without blanks. -/
def encodeChars : List (List Char) → List Char
  | [] => ['[', ']']
  | s :: ss => '[' :: (encodeString s ++ encodeRest ss)

/-- The JSON text of a list of strings. -/
def encode (lines : List String) : String := String.ofList (encodeChars (lines.map String.toList))

/-! ### Reading -/

/-- A blank between the parts of a JSON text. -/
def isBlank (c : Char) : Bool := c == ' ' || c == '\t' || c == '\n' || c == '\r'

/-- The value of four hexadecimal digits. -/
def hex4? (a b c d : Char) : Option Nat := do
  return ((← Text.hexValue? a) * 16 + (← Text.hexValue? b)) * 256 +
    ((← Text.hexValue? c) * 16 + (← Text.hexValue? d))

/-- The character that a backslash and a letter stand for. -/
def simpleEscape? : Char → Option Char
  | '"' => some '"'
  | '\\' => some '\\'
  | '/' => some '/'
  | 'b' => some '\x08'
  | 'f' => some '\x0c'
  | 'n' => some '\n'
  | 'r' => some '\r'
  | 't' => some '\t'
  | _ => none

/-- The character of a code unit that is no surrogate. -/
def unitChar? (unit : Nat) : Option Char :=
  if 0xD800 ≤ unit ∧ unit ≤ 0xDFFF then none else some (Char.ofNat unit)

/-- The character of a surrogate pair. -/
def pairChar? (high low : Nat) : Option Char :=
  if 0xD800 ≤ high ∧ high ≤ 0xDBFF ∧ 0xDC00 ≤ low ∧ low ≤ 0xDFFF then
    some (Char.ofNat (0x10000 + (high - 0xD800) * 0x400 + (low - 0xDC00)))
  else none

/-- Where in the array the reading stands. -/
inductive Position where
  /-- Before the opening bracket. -/
  | before
  /-- Behind the opening bracket. -/
  | first
  /-- Behind a comma. -/
  | next
  /-- Inside a string, whose characters so far are kept backwards. -/
  | inside (backwards : List Char)
  /-- Behind an element. -/
  | after
  /-- Behind the closing bracket. -/
  | done

/-- The elements from a position on; inside a string, that string comes first. -/
def decodeFrom : Position → List Char → Option (List (List Char))
  | .done, [] => some []
  | .inside acc, '\\' :: 'u' :: a :: b :: c :: d :: '\\' :: 'u' :: e :: f :: g :: h :: cs => do
    let unit ← hex4? a b c d
    match unitChar? unit with
    | some x => decodeFrom (.inside (x :: acc)) ('\\' :: 'u' :: e :: f :: g :: h :: cs)
    | none => do
      let low ← hex4? e f g h
      let x ← pairChar? unit low
      decodeFrom (.inside (x :: acc)) cs
  | .inside acc, '\\' :: 'u' :: a :: b :: c :: d :: cs => do
    let unit ← hex4? a b c d
    let x ← unitChar? unit
    decodeFrom (.inside (x :: acc)) cs
  | .inside acc, '\\' :: c :: cs => do
    let x ← simpleEscape? c
    decodeFrom (.inside (x :: acc)) cs
  | .inside acc, c :: cs =>
    if c = '"' then (decodeFrom .after cs).map (acc.reverse :: ·)
    else if c.toNat < 0x20 ∨ c = '\\' then none
    else decodeFrom (.inside (c :: acc)) cs
  | position, c :: cs =>
    if isBlank c then decodeFrom position cs
    else match position with
      | .before => if c = '[' then decodeFrom .first cs else none
      | .first =>
        if c = '"' then decodeFrom (.inside []) cs
        else if c = ']' then decodeFrom .done cs else none
      | .next => if c = '"' then decodeFrom (.inside []) cs else none
      | .after =>
        if c = ',' then decodeFrom .next cs
        else if c = ']' then decodeFrom .done cs else none
      | _ => none
  | _, [] => none

/-- The list of strings of a JSON text. -/
def decode? (text : String) : Option (List String) :=
  (decodeFrom .before text.toList).map (·.map String.ofList)

end SciCalc.History.StringList
