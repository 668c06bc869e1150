import SciCalc.Named
import SciCalc.Store

/-!
# The memory store

A store that lives as long as its value: nothing in it fails.
-/

set_option autoImplicit false

namespace SciCalc

/-- A store without files. -/
structure MemoryStore where
  values : Named String := []

/-- No operation fails. -/
instance : Store MemoryStore where
  read s key := (.ok (s.values.get? key), s)
  write s key text := (.ok (), { values := s.values.put key text })
  erase s key := (.ok (), { values := s.values.erase key })

end SciCalc
