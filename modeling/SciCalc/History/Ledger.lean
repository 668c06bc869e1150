import SciCalc.History.Record
import SciCalc.History.StringList
import SciCalc.Store

/-!
# The ledger

The ledger shows the records of the calculations in order and keeps them in a store as one list of
lines, written as a whole each time. What is shown is always up to date; only the store can lag
behind it. A line is added to the list that is stored; a stored text that is no list is replaced by
what is shown.
-/

set_option autoImplicit false

namespace SciCalc.History

/-- The key of the history in its store. -/
def storeKey : String := "calcHistory"

/-- The records shown, oldest first, and the store behind them. -/
structure Ledger (σ : Type) where
  records : List Record := []
  store : σ

variable {σ : Type} [Store σ]

/-- The lines in a store; none where the key is absent. -/
def readLines (store : σ) : Except StoreFault (List String) × σ :=
  match Store.read store storeKey with
  | (.error fault, store) => (.error fault, store)
  | (.ok none, store) => (.ok [], store)
  | (.ok (some text), store) =>
    match StringList.decode? text with
    | some lines => (.ok lines, store)
    | none => (.error .corrupt, store)

/-- Replaces the lines in a store. -/
def writeLines (store : σ) (lines : List String) : Except StoreFault Unit × σ :=
  Store.write store storeKey (StringList.encode lines)

namespace Ledger

/-- The ledger of a store; one that cannot be read starts empty. -/
def load (store : σ) : Ledger σ :=
  match readLines store with
  | (.ok lines, store) => { records := lines.map Record.ofText, store }
  | (.error _, store) => { records := [], store }

/-- Writes all records shown into the store. -/
def persist (l : Ledger σ) : Except StoreFault Unit × Ledger σ :=
  let (outcome, store) := writeLines l.store (l.records.map Record.text)
  (outcome, { l with store })

/-- Adds a record; a fault concerns the store only. -/
def append (l : Ledger σ) (r : Record) : Except StoreFault Unit × Ledger σ :=
  let records := l.records ++ [r]
  match readLines l.store with
  | (.ok lines, store) =>
    let (outcome, store) := writeLines store (lines ++ [r.text])
    (outcome, { records, store })
  | (.error .corrupt, store) => persist { records, store }
  | (.error fault, store) => (.error fault, { records, store })

/-- Removes all records, shown and stored. -/
def clear (l : Ledger σ) : Except StoreFault Unit × Ledger σ :=
  let (outcome, store) := Store.erase l.store storeKey
  (outcome, { records := [], store })

end Ledger

end SciCalc.History
