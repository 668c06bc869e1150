import Mathlib.Data.List.Chain
import SciCalc.Proofs.EntryTexts
import SciCalc.Proofs.Lagging
import SciCalc.Proofs.Tallying

/-!
# What is shown is what was evaluated

A line has a text that is shown and a text that is evaluated, and the history keeps the one with the
result of the other. Neighbours on the line can make them differ: two multiplications side by side
are evaluated as a power, and a number below zero is shown without its brackets, so that what stands
before it can take its sign and what stands behind it can take the number. Where none of this
happens, the two texts are read alike but for the brackets around numbers below zero.
-/

set_option autoImplicit false

namespace SciCalc

open Binary64 (isNegative field ofField)

namespace Entry

/-- Whether an operand must follow the entry. -/
def awaitsOperand : Entry → Bool
  | operator _ | opening => true
  | _ => false

/-- Whether the entry, behind a number that is shown, takes the number for itself. -/
def takesNumber : Entry → Bool
  | percent | factorialMark | permutationMark | combinationMark | operator .raise => true
  | e => e.isNumeral

/--
Nothing is lost between two neighbours when they are shown: they are not two multiplications, which
are evaluated as a power; a number below zero stands only where an operand is awaited; and what
follows it does not take the number from its sign.
-/
structure ReadsAsShown (a b : Entry) : Prop where
  not_twice : a = operator .multiply → b ≠ operator .multiply
  awaited : b.isBelowZero = true → a.awaitsOperand = true
  leaves : a.isBelowZero = true → b.takesNumber = false

/-- Whether two neighbours read as shown can be computed from them. -/
instance : DecidableRel ReadsAsShown := fun a b =>
  decidable_of_iff ((a = operator .multiply → b ≠ operator .multiply) ∧
      (b.isBelowZero = true → a.awaitsOperand = true) ∧
      (a.isBelowZero = true → b.takesNumber = false))
    ⟨fun h => ⟨h.1, h.2.1, h.2.2⟩, fun h => ⟨h.not_twice, h.awaited, h.leaves⟩⟩

/-- Two neighbours are shown apart: the second does not go on what the first began. -/
structure Apart (a b : Entry) : Prop where
  not_twice : a = operator .multiply → b ≠ operator .multiply
  awaited : b.isBelowZero = true → a.awaitsOperand = true
  leaves : a.isBelowZero = true → b.isNumeral = false

/-- A sign awaits an operand as its token does. -/
theorem awaitsOperand_of_sign? {e : Entry} {t : Token} (h : e.sign? = some t) :
    t.awaitsOperand = e.awaitsOperand := by
  cases e with
  | operator op =>
    cases h
    rfl
  | _ => first | (cases h; rfl) | cases h

/-- A sign takes a number if its token does not leave it. -/
theorem takesNumber_of_sign? {e : Entry} {t : Token} (h : e.sign? = some t) :
    e.takesNumber = !t.leavesSign ∧ t.isNumber = false := by
  cases e with
  | operator op =>
    cases h
    cases op <;> exact ⟨rfl, rfl⟩
  | _ => first | (cases h; exact ⟨rfl, rfl⟩) | cases h

/-- An entry of digits takes a number. -/
theorem takesNumber_of_isNumeral {e : Entry} (h : e.isNumeral = true) : e.takesNumber = true := by
  cases e <;> first | exact h | cases h

/-- An entry that takes no number is none of digits. -/
theorem isNumeral_of_takesNumber {e : Entry} (h : e.takesNumber = false) : e.isNumeral = false :=
  Bool.eq_false_iff.2 fun hnumeral => by simp [takesNumber_of_isNumeral hnumeral] at h

/-- Behind an entry of digits no operand is awaited. -/
theorem awaitsOperand_of_isNumeral {e : Entry} (h : e.isNumeral = true) :
    e.awaitsOperand = false := by
  cases e <;> first | rfl | cases h

/-- Neighbours that read as shown are shown apart. -/
theorem ReadsAsShown.apart {a b : Entry} (h : ReadsAsShown a b) : Apart a b where
  not_twice := h.not_twice
  awaited := h.awaited
  leaves ha := isNumeral_of_takesNumber (h.leaves ha)

end Entry

namespace Token

open Entry (sourceAll displayAll ReadsAsShown Apart IsArithmetic)

/-- Behind a numeral no operand is awaited. -/
theorem awaitsOperand_ofNumeral (cs : List Char) : (ofNumeral cs).awaitsOperand = false := by
  rw [ofNumeral]
  split <;> rfl

section Lines

variable {e : Entry} {es : List Entry}

/-- Both texts of a line that goes on no numeral end one that is held. -/
theorem lexFrom_numeral_texts (hes : ∀ e ∈ es, e.IsArithmetic)
    (h : ∀ e ∈ es.head?, e.isNumeral = false) (backwards : List Char) :
    lexFrom (.numeral backwards) (sourceAll es).toList =
        ofNumeral backwards.reverse :: lex (sourceAll es) ∧
      lexFrom (.numeral backwards) (displayAll es).toList =
        ofNumeral backwards.reverse :: lex (displayAll es) := by
  obtain ⟨hsource, hdisplay⟩ := Entry.head?_any_inNumeral hes
  have hnumeral : es.head?.any Entry.isNumeral = false := by
    cases hhead : es.head? with
    | none => rfl
    | some e => exact h e hhead
  rw [hnumeral] at hsource hdisplay
  have hchars {cs : List Char} (hcs : cs.head?.any inNumeral = false) :
      ∀ c ∈ cs.head?, inNumeral c = false := by
    intro c hc
    rw [Option.mem_def.1 hc] at hcs
    exact hcs
  exact ⟨lexFrom_numeral_of_head? (hchars hsource) backwards,
    lexFrom_numeral_of_head? (hchars hdisplay) backwards⟩

/-- A line whose first entry takes no number is shown so that it leaves one to its sign. -/
theorem leavesSign_lex_displayAll (hes : ∀ e ∈ es, e.IsArithmetic)
    (h : ∀ e ∈ es.head?, e.takesNumber = false) : LeavesSign (lex (displayAll es)) := by
  cases es with
  | nil =>
    intro t ht
    cases ht
  | cons e es =>
    have htakes : e.takesNumber = false := h e rfl
    rw [lex, Entry.toList_displayAll_cons]
    rcases (hes e (by simp)).cases with hnumeral | ⟨t, hsign⟩ | ⟨v, rfl, hfinite, hsign⟩
    · rw [Entry.takesNumber_of_isNumeral hnumeral] at htakes
      cases htakes
    · rw [(Entry.takesNumber_of_sign? hsign).1] at htakes
      rw [lexFrom_display hsign]
      simpa [LeavesSign] using htakes
    · rw [lexFrom_display_number hfinite hsign]
      simp [LeavesSign, leavesSign]

/-- A line whose first entry is no numeral but takes a number is shown so that it takes one. -/
theorem takes_lex_displayAll (hes : ∀ e ∈ es, e.IsArithmetic) (he : e ∈ es.head?)
    (hnumeral : e.isNumeral = false) (htakes : e.takesNumber = true) (v : Float) :
    TakesLiteral v (number v :: lex (displayAll es)) := by
  obtain ⟨es, rfl⟩ := List.head?_eq_some_iff.1 he
  rw [lex, Entry.toList_displayAll_cons]
  rcases (hes e (by simp)).cases with hnumeral' | ⟨t, hsign⟩ | ⟨v, rfl, hfinite, hsign⟩
  · rw [hnumeral] at hnumeral'
    cases hnumeral'
  · obtain ⟨hleaves, hnumber⟩ := Entry.takesNumber_of_sign? hsign
    rw [lexFrom_display hsign]
    exact .behind _ (by simpa [htakes] using hleaves) hnumber
  · rw [Entry.takesNumber, hnumeral] at htakes
    · cases htakes
    all_goals simp

/-- The text evaluated of a sign is its token, if the line stays apart. -/
theorem lex_sourceAll_cons (hes : ∀ e ∈ es, e.IsArithmetic) {t : Token} (hsign : e.sign? = some t)
    (htwice : e = .operator .multiply → es.head? ≠ some (.operator .multiply)) :
    lex (sourceAll (e :: es)) = t :: lex (sourceAll es) := by
  rw [lex, Entry.toList_sourceAll_cons, lexFrom_source hsign]
  · rfl
  · rintro rfl
    refine Entry.head?_sourceAll_ne_star hes (htwice ?_)
    cases e with
    | operator op =>
      cases hsign
      rfl
    | _ => cases hsign

/-- The text shown of a sign is its token. -/
theorem lex_displayAll_cons {t : Token} (hsign : e.sign? = some t) :
    lex (displayAll (e :: es)) = t :: lex (displayAll es) := by
  rw [lex, Entry.toList_displayAll_cons, lexFrom_display hsign]
  rfl

/-- The tokens of a number below zero, in brackets and without. -/
theorem lex_cons_belowZero (hes : ∀ e ∈ es, e.IsArithmetic) {v : Float}
    (hfinite : v.isFinite = true) (hv : v < 0) (hnumeral : ∀ b ∈ es.head?, b.isNumeral = false) :
    lex (sourceAll (.number v :: es)) = opening :: operator .subtract ::
        number (ofField false (field v)) :: closing :: lex (sourceAll es) ∧
      lex (displayAll (.number v :: es)) =
        operator .subtract :: number (ofField false (field v)) :: lex (displayAll es) := by
  have hsign := Entry.isNegative_of_lt_zero hfinite hv
  constructor
  · rw [lex, Entry.toList_sourceAll_cons, lexFrom_source_number hfinite hsign hv]
    rfl
  · rw [lex, Entry.toList_displayAll_cons, lexFrom_display_number hfinite hsign,
      (lexFrom_numeral_texts hes hnumeral _).2, List.reverse_reverse,
      ofNumeral_magnitudeText hfinite]

/--
The texts of the entries are read alike but for the brackets around numbers below zero: from the
start, if no sign of such a number is taken for a difference, and going on a numeral, if they do not
begin with such a number.
-/
structure ReadAlike (taken : Bool) (es : List Entry) : Prop where
  lex (awaited : Bool) : (∀ e ∈ es.head?, e.isBelowZero = true → awaited = true) →
    Unbracketed taken awaited (lex (sourceAll es)) (lex (displayAll es))
  numeral : (∀ e ∈ es.head?, e.isBelowZero = false) → ∀ awaited backwards,
    Unbracketed taken awaited (lexFrom (.numeral backwards) (sourceAll es).toList)
      (lexFrom (.numeral backwards) (displayAll es).toList)

namespace ReadAlike

variable {taken : Bool}

/-- Entries that do not begin with one of digits end a numeral, so only the start matters. -/
theorem of_lex (hes : ∀ e ∈ es, e.IsArithmetic) (hnumeral : ∀ e ∈ es.head?, e.isNumeral = false)
    (h : ∀ awaited, Unbracketed taken awaited (Token.lex (sourceAll es))
      (Token.lex (displayAll es))) : ReadAlike taken es where
  lex awaited _ := h awaited
  numeral _ awaited backwards := by
    obtain ⟨hsource, hdisplay⟩ := lexFrom_numeral_texts hes hnumeral backwards
    rw [hsource, hdisplay]
    exact .keep awaited _ (h _)

section Cons

variable (hes : ∀ e ∈ es, e.IsArithmetic) (h : ReadAlike taken es)

include h

/-- An entry of digits goes on or begins the same numeral in both texts. -/
theorem cons_digits (he : e.IsArithmetic) (hdigits : e.isNumeral = true)
    (hzero : ∀ b ∈ es.head?, b.isBelowZero = false) : ReadAlike taken (e :: es) := by
  obtain ⟨ds, hne, hds, hsource, hdisplay⟩ := Entry.exists_numeral he hdigits
  obtain ⟨hfirst, hgrow⟩ := lexFrom_append_numeral hne hds (sourceAll es).toList
  obtain ⟨hfirst', hgrow'⟩ := lexFrom_append_numeral hne hds (displayAll es).toList
  refine ⟨fun awaited _ => ?_, fun _ awaited backwards => ?_⟩
  · rw [Token.lex, Token.lex, Entry.toList_sourceAll_cons, Entry.toList_displayAll_cons, hsource,
      hdisplay, hfirst, hfirst']
    exact h.numeral hzero awaited _
  · rw [Entry.toList_sourceAll_cons, Entry.toList_displayAll_cons, hsource, hdisplay, hgrow, hgrow']
    exact h.numeral hzero awaited _

include hes

/-- A sign is the same token in both texts. -/
theorem cons_sign (he : e.IsArithmetic) {t : Token} (hsign : e.sign? = some t)
    (htwice : e = .operator .multiply → es.head? ≠ some (.operator .multiply))
    (hzero : ∀ b ∈ es.head?, b.isBelowZero = true → e.awaitsOperand = true) :
    ReadAlike taken (e :: es) := by
  refine of_lex (List.forall_mem_cons.2 ⟨he, hes⟩) ?_ fun awaited => ?_
  · simpa using Entry.isNumeral_of_sign? hsign
  · rw [lex_sourceAll_cons hes hsign htwice, lex_displayAll_cons hsign]
    rw [← Entry.awaitsOperand_of_sign? hsign] at hzero
    exact .keep awaited t (h.lex _ hzero)

/-- A negative zero has the same two texts. -/
theorem cons_negativeZero {v : Float} (hfinite : v.isFinite = true) (hsign : isNegative v = true)
    (hv : ¬v < 0) (hzero : ∀ b ∈ es.head?, b.isBelowZero = false) :
    ReadAlike taken (.number v :: es) := by
  obtain ⟨hdisplay, hsource⟩ := Entry.texts_of_isNegative hfinite hsign
  rw [if_neg hv, ← hdisplay] at hsource
  refine of_lex (List.forall_mem_cons.2 ⟨hfinite, hes⟩) ?_ fun awaited => ?_
  · simp [Entry.isNumeral, hsign]
  · rw [Token.lex, Token.lex, Entry.toList_sourceAll_cons, Entry.toList_displayAll_cons, hsource,
      lexFrom_display_number hfinite hsign, lexFrom_display_number hfinite hsign]
    exact .keep awaited _ (h.numeral hzero _ _)

/-- A number below zero loses its brackets, if what follows leaves it to its sign. -/
theorem cons_belowZero {v : Float} (hfinite : v.isFinite = true) (hv : v < 0)
    (hzero : ∀ b ∈ es.head?, b.isBelowZero = false)
    (hleaves : ∀ b ∈ es.head?, b.takesNumber = false) : ReadAlike taken (.number v :: es) := by
  have hbelow : (Entry.number v).isBelowZero = true := decide_eq_true hv
  have hnumeral : ∀ b ∈ es.head?, b.isNumeral = false := fun b hb =>
    Entry.isNumeral_of_takesNumber (hleaves b hb)
  obtain ⟨hsource, hdisplay⟩ := lex_cons_belowZero hes hfinite hv hnumeral
  refine ⟨fun awaited hawaited => ?_, fun hhead => ?_⟩
  · rw [hawaited _ rfl hbelow, hsource, hdisplay]
    exact .literal _ (leavesSign_lex_displayAll hes hleaves)
      (h.lex false fun b hb hb' => (hzero b hb).symm.trans hb')
  · cases hbelow.symm.trans (hhead _ rfl)

end Cons

/-- A number below zero is taken from its sign by what follows and is no numeral itself. -/
theorem cons_taken (hes : ∀ e ∈ es, e.IsArithmetic) {v : Float} (hfinite : v.isFinite = true)
    (hv : v < 0) (he : e ∈ es.head?) (hnumeral : e.isNumeral = false)
    (htakes : e.takesNumber = true) : ReadAlike true (.number v :: es) := by
  have hbelow : (Entry.number v).isBelowZero = true := decide_eq_true hv
  have hnumeral' : ∀ b ∈ es.head?, b.isNumeral = false := by
    intro b hb
    rwa [← Option.mem_unique he hb]
  obtain ⟨hsource, hdisplay⟩ := lex_cons_belowZero hes hfinite hv hnumeral'
  refine ⟨fun awaited hawaited => ?_, fun hhead => ?_⟩
  · rw [hawaited _ rfl hbelow, hsource, hdisplay]
    exact .taken _ _ rfl (takes_lex_displayAll hes he hnumeral htakes _)
  · cases hbelow.symm.trans (hhead _ rfl)

end ReadAlike

/--
On a line whose entries are shown apart the two texts are read alike but for the brackets around
numbers below zero, up to the first one that is taken from its sign.
-/
theorem exists_readAlike (hes : ∀ e ∈ es, e.IsArithmetic) (hchain : es.IsChain Apart) :
    ∃ taken, (taken = false ↔ es.IsChain ReadsAsShown) ∧ ReadAlike taken es := by
  induction es with
  | nil =>
    exact ⟨false, by simp, fun awaited _ => .nil awaited rfl,
      fun _ awaited _ => .keep awaited _ (.nil _ rfl)⟩
  | cons e es ih =>
    obtain ⟨hhead, htail⟩ := List.isChain_cons.1 hchain
    obtain ⟨he, hrest⟩ := List.forall_mem_cons.1 hes
    obtain ⟨taken, htaken, hread⟩ := ih hrest htail
    have hleaves (h : ∀ b ∈ es.head?, e.isBelowZero = true → b.takesNumber = false) :
        taken = false ↔ (e :: es).IsChain ReadsAsShown := by
      rw [htaken, List.isChain_cons]
      exact (and_iff_right fun b hb =>
        ⟨(hhead b hb).not_twice, (hhead b hb).awaited, h b hb⟩).symm
    have hkept (h : e.isBelowZero = false) : taken = false ↔ (e :: es).IsChain ReadsAsShown :=
      hleaves fun b _ hbelow => by simp [h] at hbelow
    -- Behind an entry that awaits no operand stands no number below zero.
    have hzero (h : e.awaitsOperand = false) : ∀ b ∈ es.head?, b.isBelowZero = false := by
      refine fun b hb => Bool.eq_false_iff.2 fun hbelow => ?_
      rw [(hhead b hb).awaited hbelow] at h
      cases h
    rcases he.cases with hdigits | ⟨t, hsign⟩ | ⟨v, rfl, hfinite, hsign⟩
    · exact ⟨taken, hkept (Entry.isBelowZero_of_isNumeral he hdigits),
        hread.cons_digits he hdigits (hzero (Entry.awaitsOperand_of_isNumeral hdigits))⟩
    · refine ⟨taken, hkept (Entry.isBelowZero_of_sign? hsign),
        hread.cons_sign hrest he hsign (fun heq hb => ?_) fun b hb => (hhead b hb).awaited⟩
      exact (hhead _ hb).not_twice heq rfl
    by_cases hv : v < 0
    · have hbelow : (Entry.number v).isBelowZero = true := decide_eq_true hv
      by_cases htakes : ∃ b ∈ es.head?, b.takesNumber = true
      · obtain ⟨b, hb, htakes⟩ := htakes
        refine ⟨true, ⟨fun h => (by cases h), fun h => ?_⟩,
          .cons_taken hrest hfinite hv hb ((hhead b hb).leaves hbelow) htakes⟩
        have hleft := ((List.isChain_cons.1 h).1 b hb).leaves hbelow
        rw [htakes] at hleft
        cases hleft
      · have hleave : ∀ b ∈ es.head?, b.takesNumber = false := fun b hb =>
          Bool.eq_false_iff.2 fun h => htakes ⟨b, hb, h⟩
        exact ⟨taken, hleaves fun b hb _ => hleave b hb,
          hread.cons_belowZero hrest hfinite hv (hzero rfl) hleave⟩
    · exact ⟨taken, hkept (decide_eq_false hv),
        hread.cons_negativeZero hrest hfinite hsign hv (hzero rfl)⟩

end Lines

end Token

end SciCalc
