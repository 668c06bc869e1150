import SciCalc.Text.Hex

/-!
# Tokens of TOML

A TOML text falls into words, punctuation, blanks, line ends and strings. Strings are decoded here;
words are not looked into, since the same characters are a key in one place and a number in another.
Comments leave no token. The reader goes through the characters once and fails at the first one that
no TOML text has in its place.
-/

set_option autoImplicit false

namespace SciCalc.Toml

/-- A token of TOML. -/
inductive Token where
  | word (cs : List Char)
  | dot
  | equals
  | comma
  | openSquare
  | closeSquare
  | openCurly
  | closeCurly
  /-- Spaces and tabs inside a line. -/
  | blank (cs : List Char)
  | lineEnd
  /-- A string in single quotation. -/
  | string (cs : List Char)
  /-- A string in triple quotation, which is no key. -/
  | longString (cs : List Char)
deriving DecidableEq

namespace Token

/-! ### Characters -/

/-- A space or a tab. -/
def isBlank (c : Char) : Bool := c == ' ' || c == '\t'

/-- The token of a punctuation character. -/
def ofPunctuation? : Char → Option Token
  | '.' => some dot
  | '=' => some equals
  | ',' => some comma
  | '[' => some openSquare
  | ']' => some closeSquare
  | '{' => some openCurly
  | '}' => some closeCurly
  | _ => none

/-- A control character, which stands in no comment and no string; the tab is none. -/
def isControl (c : Char) : Bool := (c.toNat < 0x20 && c != '\t') || c.toNat == 0x7F

/-- The character whose code point the hexadecimal digits spell. -/
def hexChar? (ds : List Char) : Option Char := do
  let code ← ds.foldlM (fun n c => (Text.hexValue? c).map (16 * n + ·)) 0
  if h : code.isValidChar then some (Char.ofNatAux code h) else none

/-- The character that a backslash and a letter stand for. -/
def simpleEscape? : Char → Option Char
  | 'b' => some '\x08'
  | 't' => some '\t'
  | 'n' => some '\n'
  | 'f' => some '\x0c'
  | 'r' => some '\r'
  | 'e' => some '\x1b'
  | '"' => some '"'
  | '\\' => some '\\'
  | _ => none

/-- How many digits follow a letter that announces a code point. -/
def codeDigits : Char → Nat
  | 'x' => 2
  | 'u' => 4
  | 'U' => 8
  | _ => 0

/-- The character of an escape behind its backslash, and how many characters spell it. -/
def escape? : List Char → Option (Char × Nat)
  | [] => none
  | c :: cs =>
    match simpleEscape? c with
    | some x => some (x, 1)
    | none =>
      let count := codeDigits c
      if count = 0 ∨ cs.length < count then none
      else (hexChar? (cs.take count)).map fun x => (x, count + 1)

/-- The length of the line end that the characters start with; zero if there is none. -/
def lineEndLength : List Char → Nat
  | '\n' :: _ => 1
  | '\r' :: '\n' :: _ => 2
  | _ => 0

/-- The characters behind the blanks and line ends at the start. -/
def skipLines : List Char → List Char
  | '\n' :: cs => skipLines cs
  | '\r' :: '\n' :: cs => skipLines cs
  | c :: cs => if isBlank c then skipLines cs else c :: cs
  | [] => []

/--
The length of a backslash at the end of a line, behind that backslash: blanks, the line end, and all
blanks and line ends after it.
-/
def continuationLength? (cs : List Char) : Option Nat :=
  let rest := cs.dropWhile isBlank
  if lineEndLength rest = 0 then none
  else some (cs.length - (skipLines rest).length)

/-! ### Strings -/

/-- The kinds of strings. -/
structure Quotation where
  /-- The quotation mark, `"` or `'`. -/
  mark : Char
  /-- Whether the mark stands three times on either side, and the string may have several lines. -/
  isLong : Bool

namespace Quotation

/-- Whether strings of this kind have escapes. -/
def hasEscapes (q : Quotation) : Bool := q.mark == '"'

/-- The token of a string of this kind. -/
def token (q : Quotation) (cs : List Char) : Token := if q.isLong then longString cs else string cs

/-- The length of the run of marks that the characters start with. -/
def run (q : Quotation) (cs : List Char) : Nat := (cs.takeWhile (· == q.mark)).length

/-- The quotation that a mark and the characters behind it open, and its length behind the mark. -/
def opening (mark : Char) (cs : List Char) : Quotation × Nat :=
  match cs with
  | second :: third :: rest =>
    if second = mark ∧ third = mark then (⟨mark, true⟩, 2 + lineEndLength rest)
    else (⟨mark, false⟩, 0)
  | _ => (⟨mark, false⟩, 0)

/--
How many marks at the start of the characters still belong to the string, if they close it: a long
string may end with two marks of its own.
-/
def closing? (q : Quotation) (cs : List Char) : Option Nat :=
  if q.isLong then
    if q.run cs < 3 then none else some (min (q.run cs - 3) 2)
  else if q.run cs = 0 then none else some 0

/-- The number of marks on one side. -/
def width (q : Quotation) : Nat := if q.isLong then 3 else 1

end Quotation

/-! ### Reading -/

/-- Where the reading stands; what is held is kept backwards. -/
inductive Place where
  /-- Between tokens. -/
  | outside
  | word (held : List Char)
  | blank (held : List Char)
  | comment
  | inside (q : Quotation) (held : List Char)

/-- The token held outside strings. -/
def Place.held : Place → List Token
  | .word cs => [.word cs.reverse]
  | .blank cs => [.blank cs.reverse]
  | _ => []

/-- The place behind an ordinary character outside strings, and the tokens it completes. -/
def continueWith (place : Place) (c : Char) : List Token × Place :=
  match ofPunctuation? c with
  | some t => (place.held ++ [t], .outside)
  | none =>
    if c = '#' then (place.held, .comment)
    else if isBlank c then
      match place with
      | .blank cs => ([], .blank (c :: cs))
      | _ => (place.held, .blank [c])
    else
      match place with
      | .word cs => ([], .word (c :: cs))
      | _ => (place.held, .word [c])

/-- The tokens of the characters from a place on. -/
def readFrom : Place → List Char → Option (List Token)
  | .inside _ _, [] => none
  | place, [] => some place.held
  | .inside q held, c :: cs =>
    match q.closing? (c :: cs) with
    | some own =>
      (readFrom .outside (cs.drop (own + q.width - 1))).map
        (q.token (held.reverse ++ List.replicate own q.mark) :: ·)
    | none =>
      if c = '\\' ∧ q.hasEscapes then
        match escape? cs with
        | some (x, length) => readFrom (.inside q (x :: held)) (cs.drop length)
        | none =>
          if q.isLong then do
            let length ← continuationLength? cs
            readFrom (.inside q held) (cs.drop length)
          else none
      else if lineEndLength (c :: cs) ≠ 0 then
        if q.isLong then
          let length := lineEndLength (c :: cs)
          readFrom (.inside q (((c :: cs).take length).reverse ++ held)) (cs.drop (length - 1))
        else none
      else if isControl c then none
      else readFrom (.inside q (c :: held)) cs
  | place, c :: cs =>
    if lineEndLength (c :: cs) ≠ 0 then
      (readFrom .outside (cs.drop (lineEndLength (c :: cs) - 1))).map
        (place.held ++ .lineEnd :: ·)
    else if isControl c then none
    else match place with
      | .comment => readFrom .comment cs
      | place =>
        if c = '"' ∨ c = '\'' then
          let (q, length) := Quotation.opening c cs
          (readFrom (.inside q []) (cs.drop length)).map (place.held ++ ·)
        else
          let (tokens, next) := continueWith place c
          (readFrom next cs).map (tokens ++ ·)
termination_by _ cs => cs.length
decreasing_by all_goals simp; try omega

/-- The tokens of a text, whose byte order mark does not count. -/
def readText (text : String) : Option (List Token) :=
  match text.toList with
  | '\uFEFF' :: cs => readFrom .outside cs
  | cs => readFrom .outside cs

end Token

end SciCalc.Toml
