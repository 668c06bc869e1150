import SciCalc.Named
import SciCalc.Toml.Scalar

/-!
# Tables of TOML

Values and tables, and the rules by which keys and headers add to them. No key is given twice. A
header opens a table that is new or that only deeper headers have implied; a dotted key extends only
tables made by dotted keys; a table in curly brackets is closed for good.
-/

set_option autoImplicit false

namespace SciCalc.Toml

/-- How a table came about, which decides what may still be added to it. -/
inductive TableOrigin where
  /-- By a deeper header. -/
  | implied
  /-- By a dotted key. -/
  | dotted
  /-- By a header of its own. -/
  | header
  /-- By curly brackets. -/
  | inline
deriving DecidableEq

/-- A value of TOML. -/
inductive Value where
  | string (cs : List Char)
  | scalar (s : Scalar)
  | array (elements : List Value)
  | table (origin : TableOrigin) (entries : List (String × Value))
  /-- The tables under one doubled header, last first. -/
  | tables (backwards : List (List (String × Value)))

/-- The entries of a table. -/
abbrev Entries := Named Value

namespace Entries

/--
Adds a value under the keys of a dotted key. The table that takes the value must be `direct`: the
one the dotted key stands in, or one that dotted keys have made.
-/
def insertDotted (v : Value) : Bool → List String → Entries → Option Entries
  | _, [], _ => none
  | direct, [key], es => if direct ∧ (es.get? key).isNone then some (es.put key v) else none
  | _, key :: path, es =>
    match es.get? key with
    | none => (insertDotted v true path []).map fun sub => es.put key (.table .dotted sub)
    | some (.table .dotted sub) =>
      (insertDotted v true path sub).map fun sub => es.put key (.table .dotted sub)
    | some (.table .implied sub) =>
      (insertDotted v false path sub).map fun sub => es.put key (.table .implied sub)
    | some (.tables (last :: earlier)) =>
      (insertDotted v false path last).map fun last => es.put key (.tables (last :: earlier))
    | _ => none

/--
Changes the entries of the table that a header path names, of the last one where the path names
several. Tables on the way that do not exist are implied.
-/
def modifyAt (f : Entries → Option Entries) : List String → Entries → Option Entries
  | [], es => f es
  | key :: path, es =>
    match es.get? key with
    | none => (modifyAt f path []).map fun sub => es.put key (.table .implied sub)
    | some (.table .inline _) => none
    | some (.table origin sub) =>
      (modifyAt f path sub).map fun sub => es.put key (.table origin sub)
    | some (.tables (last :: earlier)) =>
      (modifyAt f path last).map fun last => es.put key (.tables (last :: earlier))
    | _ => none

/-- Opens the table of a key for a header. -/
def openTable (key : String) (es : Entries) : Option Entries :=
  match es.get? key with
  | none => some (es.put key (.table .header []))
  | some (.table .implied sub) => some (es.put key (.table .header sub))
  | _ => none

/-- Adds a table to those of a key for a doubled header. -/
def openElement (key : String) (es : Entries) : Option Entries :=
  match es.get? key with
  | none => some (es.put key (.tables [[]]))
  | some (.tables backwards) => some (es.put key (.tables ([] :: backwards)))
  | _ => none

end Entries

end SciCalc.Toml
