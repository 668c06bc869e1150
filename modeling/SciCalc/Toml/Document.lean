import SciCalc.Toml.Table
import SciCalc.Toml.Token

/-!
# Documents of TOML

A document is read token by token. The reader keeps the tables so far, the table that the last
header has opened, the key whose value is being read, and a stack of the collections around that
value. Inside a collection a line may end between any two of its parts; only a dotted key stays on
one line.
-/

set_option autoImplicit false

namespace SciCalc.Toml

/-- A collection that is still open. -/
inductive Frame where
  | array (backwards : List Value)
  /-- A table, and the dotted key whose value is being read. -/
  | table (entries : Entries) (key : List String)

/-- What may come next. -/
inductive Expectation where
  /-- A key, a header or an empty line. -/
  | lineStart
  /-- Behind the bracket of a header. -/
  | headerStart
  /-- A part of a key; keys are kept backwards. -/
  | keyPart (inHeader : Option Bool) (key : List String)
  /-- Behind a part of a key. -/
  | keyEnd (inHeader : Option Bool) (key : List String)
  /-- Behind the first bracket that closes a doubled header. -/
  | headerEnd (key : List String)
  /-- The equals sign behind a key in curly brackets, on a later line than the key. -/
  | equals (key : List String)
  /-- A value, inside curly brackets behind any empty lines. -/
  | value
  /-- A value of an array or the end of the array, behind any empty lines. -/
  | element
  /-- A key of a table in curly brackets or its end, behind any empty lines. -/
  | member
  /-- The rest of a word. -/
  | scalar (cs : List Char)
  /-- The time behind a date and one space. -/
  | time (date : List Char)
  /-- Behind a value. -/
  | valueEnd
  /-- Behind a header. -/
  | lineEnd

/-- The state of the reader. -/
structure Reader where
  root : Entries := []
  /-- The path of the table that the last header has opened. -/
  opened : List String := []
  /-- The key of the value being read outside all collections. -/
  key : List String := []
  frames : List Frame := []
  expects : Expectation := .lineStart

namespace Reader

/-- Collections may be nested this deep. -/
def deepest : Nat := 80

/-- The part of a key that a token is. -/
def keyPart? : Token → Option String
  | .word cs =>
    if cs.all fun c => c.isAlphanum || c == '-' || c == '_' then some (String.ofList cs) else none
  | .string cs => some (String.ofList cs)
  | _ => none

/-- Puts a finished value where it belongs. -/
def complete (r : Reader) (v : Value) : Option Reader :=
  match r.frames with
  | [] => do
    let root ← r.root.modifyAt (Entries.insertDotted v true r.key) r.opened
    return { r with root, expects := .valueEnd }
  | .array backwards :: frames =>
    some { r with frames := .array (v :: backwards) :: frames, expects := .valueEnd }
  | .table entries key :: frames => do
    let entries ← entries.insertDotted v true key
    return { r with frames := .table entries [] :: frames, expects := .valueEnd }

/-- Closes the innermost collection if it is of the kind that the token closes. -/
def close (r : Reader) (t : Token) : Option Reader :=
  match r.frames, t with
  | .array backwards :: frames, .closeSquare =>
    { r with frames }.complete (.array backwards.reverse)
  | .table entries _ :: frames, .closeCurly =>
    { r with frames }.complete (.table .inline entries)
  | _, _ => none

/-- Opens a collection. -/
def enter (r : Reader) (frame : Frame) (expects : Expectation) : Option Reader :=
  if r.frames.length < deepest then some { r with frames := frame :: r.frames, expects } else none

/-- A token where a value starts. -/
def startValue (r : Reader) (t : Token) : Option Reader :=
  match t with
  | .blank _ => some r
  | .string cs => r.complete (.string cs)
  | .longString cs => r.complete (.string cs)
  | .openSquare => r.enter (.array []) .element
  | .openCurly => r.enter (.table [] []) .member
  | .word cs => some { r with expects := .scalar cs }
  | _ => none

/-- A token behind a value. -/
def endValue (r : Reader) (t : Token) : Option Reader :=
  match r.frames, t with
  | _, .blank _ => some { r with expects := .valueEnd }
  | [], .lineEnd => some { r with expects := .lineStart }
  | [], _ => none
  | _, .lineEnd => some { r with expects := .valueEnd }
  | .array _ :: _, .comma => some { r with expects := .element }
  | .table _ _ :: _, .comma => some { r with expects := .member }
  | _, t => r.close t

/-- Finishes the scalar of a word. -/
def completeWord (r : Reader) (cs : List Char) : Option Reader := do
  let s ← Scalar.ofWord? cs
  r.complete (.scalar s)

/-- A token behind the part of a word. -/
def continueWord (r : Reader) (cs : List Char) (t : Token) : Option Reader :=
  match t with
  | .word more => some { r with expects := .scalar (cs ++ more) }
  | .dot => some { r with expects := .scalar (cs ++ ['.']) }
  | .blank [' '] =>
    if Scalar.isDate cs then some { r with expects := .time cs }
    else (r.completeWord cs).bind (endValue · t)
  | t => (r.completeWord cs).bind (endValue · t)

/-- A token behind a date and one space: a time starts with a digit. -/
def continueDate (r : Reader) (date : List Char) (t : Token) : Option Reader :=
  match t with
  | .word (c :: cs) =>
    if c.isDigit then some { r with expects := .scalar (date ++ ' ' :: c :: cs) } else none
  | t => (r.completeWord date).bind (endValue · t)

/-- Opens the table of a header; the key is kept backwards. -/
def openHeader (r : Reader) (isDoubled : Bool) (key : List String) : Option Reader :=
  match key with
  | [] => none
  | last :: parents => do
    let change := if isDoubled then Entries.openElement last else Entries.openTable last
    let root ← r.root.modifyAt change parents.reverse
    return { r with root, opened := key.reverse, expects := .lineEnd }

/-- A token where a part of a key must stand. -/
def readKeyPart (r : Reader) (inHeader : Option Bool) (key : List String) (t : Token) :
    Option Reader :=
  match t with
  | .blank _ => some r
  | t => (keyPart? t).map fun part => { r with expects := .keyEnd inHeader (part :: key) }

/-- An equals sign: the value of a key, which is kept backwards, comes next. -/
def startAssignment (r : Reader) (key : List String) : Reader :=
  match r.frames with
  | .table entries _ :: frames =>
    { r with frames := .table entries key.reverse :: frames, expects := .value }
  | _ => { r with key := key.reverse, expects := .value }

/-- A token behind a part of a key. -/
def endKeyPart (r : Reader) (inHeader : Option Bool) (key : List String) (t : Token) :
    Option Reader :=
  match t, inHeader with
  | .blank _, _ => some r
  | .dot, _ => some { r with expects := .keyPart inHeader key }
  | .closeSquare, some false => r.openHeader false key
  | .closeSquare, some true => some { r with expects := .headerEnd key }
  | .equals, none => some (r.startAssignment key)
  | .lineEnd, none => if r.frames.isEmpty then none else some { r with expects := .equals key }
  | _, _ => none

/-- A token behind the line end that follows a key in curly brackets. -/
def readEquals (r : Reader) (key : List String) (t : Token) : Option Reader :=
  match t with
  | .blank _ => some r
  | .lineEnd => some r
  | .equals => some (r.startAssignment key)
  | _ => none

/-- Reads one token. -/
def step (r : Reader) (t : Token) : Option Reader :=
  match r.expects with
  | .lineStart =>
    match t with
    | .blank _ => some r
    | .lineEnd => some r
    | .openSquare => some { r with expects := .headerStart }
    | t => r.readKeyPart none [] t
  | .headerStart =>
    match t with
    | .openSquare => some { r with expects := .keyPart (some true) [] }
    | .blank _ => some { r with expects := .keyPart (some false) [] }
    | t => r.readKeyPart (some false) [] t
  | .keyPart inHeader key => r.readKeyPart inHeader key t
  | .keyEnd inHeader key => r.endKeyPart inHeader key t
  | .headerEnd key => if t = .closeSquare then r.openHeader true key else none
  | .equals key => r.readEquals key t
  | .value =>
    match t with
    | .lineEnd => if r.frames.isEmpty then none else some r
    | t => r.startValue t
  | .element =>
    match t with
    | .lineEnd => some r
    | .closeSquare => r.close t
    | t => r.startValue t
  | .member =>
    match t with
    | .lineEnd => some r
    | .closeCurly => r.close t
    | t => r.readKeyPart none [] t
  | .scalar cs => r.continueWord cs t
  | .time date => r.continueDate date t
  | .valueEnd => r.endValue t
  | .lineEnd =>
    match t with
    | .blank _ => some r
    | .lineEnd => some { r with expects := .lineStart }
    | _ => none

/-- The tables once all tokens are read, if nothing is left open. -/
def finish (r : Reader) : Option Entries :=
  match r.expects with
  | .lineStart => some r.root
  | _ => none

end Reader

/-- The tables of a text; the end of the text ends its last line. -/
def ofText? (text : String) : Option Entries := do
  let tokens ← Token.readText text
  let r ← (tokens ++ [Token.lineEnd]).foldlM Reader.step {}
  r.finish

end SciCalc.Toml
