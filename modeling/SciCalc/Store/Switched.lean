import SciCalc.Store

/-!
# Stores with switches

A store that can be made to fail: each switch turns one kind of operation off, which then changes
nothing.
-/

set_option autoImplicit false

namespace SciCalc

/-- A store behind three switches. -/
structure Switched (σ : Type) where
  store : σ
  /-- Writing fails. -/
  full : Bool := false
  /-- Reading fails. -/
  unreadable : Bool := false
  /-- Erasing fails. -/
  undeletable : Bool := false

namespace Switched

variable {σ : Type} [Store σ]

/-- The answer of the store behind an open switch, or the fault that a closed one names. -/
def guarded {α : Type} (s : Switched σ) (off : Bool) (reason : String)
    (operation : σ → Except StoreFault α × σ) : Except StoreFault α × Switched σ :=
  if off then (.error (.unavailable reason), s)
  else
    let (answer, store) := operation s.store
    (answer, { s with store })

/-- Each kind of operation has its switch and its reason. -/
instance : Store (Switched σ) where
  read s key := s.guarded s.unreadable "lecture" (Store.read · key)
  write s key text := s.guarded s.full "quota" (Store.write · key text)
  erase s key := s.guarded s.undeletable "suppression" (Store.erase · key)

end Switched

end SciCalc
