/-!
# Named values

Lists of values under names. A name that is put again takes its new value alone, so no name is left
with two.
-/

set_option autoImplicit false

namespace SciCalc

/-- Named values; of several with one name the first counts. -/
abbrev Named (α : Type) := List (String × α)

/-- The value of a name. -/
def Named.get? {α : Type} (values : Named α) (name : String) : Option α := values.lookup name

/-- The values with the one of a name replaced or added. -/
def Named.put {α : Type} (values : Named α) (name : String) (value : α) : Named α :=
  (name, value) :: values.filter (·.1 != name)

/-- The values without that of a name. -/
def Named.erase {α : Type} (values : Named α) (name : String) : Named α :=
  values.filter (·.1 != name)

namespace Named

variable {α : Type}

/-- What is put under a name is found there. -/
@[simp] theorem get?_put (values : Named α) (name : String) (value : α) :
    (values.put name value).get? name = some value := by
  simp [get?, put]

/-- Erasing one name leaves the others. -/
theorem get?_erase_of_ne {name other : String} (h : other ≠ name) (values : Named α) :
    (values.erase name).get? other = values.get? other := by
  induction values with
  | nil => rfl
  | cons p ps ih =>
    obtain ⟨key, v⟩ := p
    simp only [get?, erase] at ih ⊢
    by_cases hk : key = name
    · subst hk
      have ho : (other == key) = false := by simpa using h
      simp [List.lookup_cons, ho, ih]
    · cases ho : other == key <;> simp [hk, List.lookup_cons, ho, ih]

/-- Putting a value under one name leaves the others. -/
theorem get?_put_of_ne {name other : String} (h : other ≠ name) (values : Named α) (value : α) :
    (values.put name value).get? other = values.get? other := by
  have ho : (other == name) = false := by simpa using h
  simpa [get?, put, erase, List.lookup_cons, ho] using get?_erase_of_ne h values

/-- Nothing is found under an erased name. -/
@[simp] theorem get?_erase (values : Named α) (name : String) :
    (values.erase name).get? name = none := by
  induction values with
  | nil => rfl
  | cons p ps ih =>
    obtain ⟨key, v⟩ := p
    simp only [get?, erase] at ih ⊢
    by_cases h : key = name
    · simp [h, ih]
    · have hk : (name == key) = false := by simpa using fun h' : name = key => h h'.symm
      simp [h, List.lookup_cons, hk, ih]

end Named

end SciCalc
