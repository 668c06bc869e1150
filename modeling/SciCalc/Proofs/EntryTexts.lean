import SciCalc.Proofs.Chaining

/-!
# Reading the texts of entries

How the two texts of a line are read entry by entry, for the entries of arithmetic. An entry of
digits goes on a numeral or begins one, in both texts alike. An entry of one sign is one token, in
both texts the same, if no second star makes a power of the first. A number with a sign is read with
its minus sign; if it is below zero, the text that is evaluated has brackets around it.
-/

set_option autoImplicit false

namespace SciCalc

open Binary64 (isNegative field ofField)

namespace Entry

/-- The entry is of a key of arithmetic: no function, no comma, no last result. -/
def IsArithmetic : Entry → Prop
  | function _ | comma | answer => False
  | number v => v.isFinite = true
  | _ => True

/-- Whether an entry is of arithmetic can be computed from it. -/
instance : DecidablePred IsArithmetic
  | function _ | comma | answer => .isFalse id
  | number v => inferInstanceAs (Decidable (v.isFinite = true))
  | digit _ | point | operator _ | opening | closing | percent | factorialMark | permutationMark
  | combinationMark | pi => .isTrue trivial

/-- Whether the entry goes on a numeral or begins one. -/
def isNumeral : Entry → Bool
  | digit _ | point => true
  | number v => !isNegative v
  | _ => false

/-- The token of an entry of one sign. -/
def sign? : Entry → Option Token
  | operator op => some (.operator op)
  | opening => some .opening
  | closing => some .closing
  | percent => some .percent
  | factorialMark => some .factorialMark
  | permutationMark => some .permutationMark
  | combinationMark => some .combinationMark
  | pi => some .pi
  | _ => none

/-- Whether the entry is a number below zero, which is evaluated in brackets and shown without. -/
def isBelowZero : Entry → Bool
  | number v => v < 0
  | _ => false

/-- An entry of arithmetic has digits, one sign, or a number with a sign. -/
theorem IsArithmetic.cases {e : Entry} (h : e.IsArithmetic) :
    e.isNumeral = true ∨ (∃ t, e.sign? = some t) ∨
      ∃ v, e = number v ∧ v.isFinite = true ∧ isNegative v = true := by
  cases e with
  | number v =>
    cases hsign : isNegative v with
    | true => exact .inr (.inr ⟨v, rfl, h, hsign⟩)
    | false => exact .inl (by simp [isNumeral, hsign])
  | _ => first | exact .inl rfl | exact .inr (.inl ⟨_, rfl⟩) | cases h

/-- A number below zero has a sign. -/
theorem isNegative_of_lt_zero {v : Float} (h : v.isFinite = true) (hv : v < 0) :
    isNegative v = true := by
  have hzero : (0 : Float).isFinite = true ∧ Binary64.place 0 = 0 := by decide +kernel
  have hplace := (Binary64.lt_iff_place h hzero.1).1 hv
  rw [hzero.2, Binary64.place] at hplace
  split at hplace
  · assumption
  · omega

/-- An entry of digits is no number below zero. -/
theorem isBelowZero_of_isNumeral {e : Entry} (he : e.IsArithmetic) (h : e.isNumeral = true) :
    e.isBelowZero = false := by
  cases e with
  | number v =>
    refine decide_eq_false fun hv => ?_
    simp [isNumeral, isNegative_of_lt_zero he hv] at h
  | _ => rfl

/-- A sign is no entry of digits. -/
theorem isNumeral_of_sign? {e : Entry} {t : Token} (h : e.sign? = some t) :
    e.isNumeral = false := by
  cases e <;> first | rfl | cases h

/-- A sign is no number below zero. -/
theorem isBelowZero_of_sign? {e : Entry} {t : Token} (h : e.sign? = some t) :
    e.isBelowZero = false := by
  cases e <;> first | rfl | cases h

/-! ## The texts -/

/-- The texts of entries, one after the other. -/
theorem toList_sourceAll_cons (e : Entry) (es : List Entry) :
    (sourceAll (e :: es)).toList = e.source.toList ++ (sourceAll es).toList := by
  simp [sourceAll]

/-- The display of the first entry stands in front. -/
theorem toList_displayAll_cons (e : Entry) (es : List Entry) :
    (displayAll (e :: es)).toList = e.display.toList ++ (displayAll es).toList := by
  simp [displayAll]

/-- The two texts of an entry of digits are digits and points. -/
theorem exists_numeral {e : Entry} (h : e.IsArithmetic) (hnumeral : e.isNumeral = true) :
    ∃ ds, ds ≠ [] ∧ (∀ c ∈ ds, Token.inNumeral c = true) ∧ e.source.toList = ds ∧
      e.display.toList = ds := by
  cases e with
  | digit d =>
    refine ⟨[Decimal.digitChar d], by simp, ?_, by simp [source], by simp [display, source]⟩
    have all : ∀ d : Fin 10, Token.inNumeral (Decimal.digitChar d) = true := by decide
    simpa using all d
  | point => exact ⟨['.'], by simp, List.forall_mem_singleton.2 rfl, rfl, rfl⟩
  | number v =>
    have hfinite : v.isFinite = true := h
    have hfield := (Binary64.isFinite_iff v).1 hfinite
    have hsign : isNegative v = false := by simpa [isNumeral] using hnumeral
    have hzero : ¬v < 0 := of_decide_eq_false (isBelowZero_of_isNumeral h hnumeral)
    have htext : (Number.text v).toList = Number.magnitudeText (field v) := by
      rw [Number.text, String.toList_ofList, Number.chars_of_isFinite hfinite, hsign,
        if_neg (by simp)]
    refine ⟨Number.magnitudeText (field v), Number.magnitudeText_ne_nil hfield, ?_, ?_, htext⟩
    · exact fun c hc => Token.inNumeral_iff.2
        (Number.isDigit_or_point_of_mem_magnitudeText hfield c hc)
    · rw [source, if_neg hzero, htext]
  | _ => cases hnumeral

/-- The two texts of a number with a sign, which is evaluated in brackets if it is below zero. -/
theorem texts_of_isNegative {v : Float} (h : v.isFinite = true) (hsign : isNegative v = true) :
    (number v).display.toList = '-' :: Number.magnitudeText (field v) ∧
      (number v).source.toList =
        if v < 0 then '(' :: '-' :: (Number.magnitudeText (field v) ++ [')'])
        else '-' :: Number.magnitudeText (field v) := by
  have htext : (Number.text v).toList = '-' :: Number.magnitudeText (field v) := by
    rw [Number.text, String.toList_ofList, Number.chars_of_isFinite h, if_pos hsign]
  refine ⟨htext, ?_⟩
  rw [source]
  split
  · simp [htext]
  · exact htext

end Entry

namespace Token

open Entry (IsArithmetic)

/-! ## Reading -/

/-- A run of digits and points grows a numeral or starts one. -/
theorem lexFrom_append_numeral {ds : List Char} (hne : ds ≠ []) (hds : ∀ c ∈ ds, inNumeral c = true)
    (rest : List Char) :
    lexFrom .nothing (ds ++ rest) = lexFrom (.numeral ds.reverse) rest ∧
      ∀ backwards, lexFrom (.numeral backwards) (ds ++ rest) =
        lexFrom (.numeral (ds.reverse ++ backwards)) rest := by
  have hgrow (ds : List Char) (hds : ∀ c ∈ ds, inNumeral c = true) (backwards : List Char) :
      lexFrom (.numeral backwards) (ds ++ rest) =
        lexFrom (.numeral (ds.reverse ++ backwards)) rest := by
    induction ds generalizing backwards with
    | nil => rfl
    | cons c ds ih =>
      have hextend : Held.extend? (.numeral backwards) c = some (.numeral (c :: backwards)) :=
        if_pos (hds c (by simp))
      rw [List.cons_append, lexFrom, hextend]
      show lexFrom (.numeral (c :: backwards)) (ds ++ rest) = _
      rw [ih fun d hd => hds d (by simp [hd])]
      simp
  refine ⟨?_, hgrow ds hds⟩
  obtain ⟨c, ds, rfl⟩ := List.exists_cons_of_ne_nil hne
  have hextend : Held.extend? .nothing c = none := rfl
  rw [List.cons_append, lexFrom, hextend]
  show Held.tokens .nothing ++ (start c).1 ++ lexFrom (start c).2 (ds ++ rest) = _
  rw [start_of_inNumeral (hds c (by simp))]
  show lexFrom (.numeral [c]) (ds ++ rest) = _
  rw [hgrow ds fun d hd => hds d (by simp [hd])]
  simp

/-- A numeral ends before a character that is not of one. -/
theorem lexFrom_numeral_of_head? {rest : List Char}
    (h : ∀ c ∈ rest.head?, inNumeral c = false) (backwards : List Char) :
    lexFrom (.numeral backwards) rest = ofNumeral backwards.reverse :: lexFrom .nothing rest := by
  cases rest with
  | nil => rfl
  | cons c rest =>
    have hextend : Held.extend? (.numeral backwards) c = none := if_neg (by simp [h c rfl])
    rw [lexFrom_of_extend?_eq_none rest hextend]
    rfl

/-- A star ends before a character that is not one. -/
theorem lexFrom_star_of_head? {rest : List Char} (h : rest.head? ≠ some '*') :
    lexFrom .star rest = operator .multiply :: lexFrom .nothing rest := by
  cases rest with
  | nil => rfl
  | cons c rest =>
    have hextend : Held.extend? .star c = none := if_neg fun hc => h (by rw [hc]; rfl)
    rw [lexFrom_of_extend?_eq_none rest hextend]
    rfl

/-- The text evaluated of a sign is its token, unless a second star follows a first. -/
theorem lexFrom_source {e : Entry} {t : Token} (h : e.sign? = some t) {rest : List Char}
    (hstar : t = operator .multiply → rest.head? ≠ some '*') :
    lexFrom .nothing (e.source.toList ++ rest) = t :: lexFrom .nothing rest := by
  cases e with
  | operator op =>
    cases h
    cases op with
    | multiply => exact lexFrom_star_of_head? (hstar rfl)
    | _ => rfl
  | _ => first | (cases h; rfl) | cases h

/-- The text shown of a sign is its token. -/
theorem lexFrom_display {e : Entry} {t : Token} (h : e.sign? = some t) (rest : List Char) :
    lexFrom .nothing (e.display.toList ++ rest) = t :: lexFrom .nothing rest := by
  cases e with
  | operator op =>
    cases h
    cases op <;> rfl
  | _ => first | (cases h; rfl) | cases h

/-- A minus sign is read by itself. -/
theorem lexFrom_minus (cs : List Char) :
    lexFrom .nothing ('-' :: cs) = operator .subtract :: lexFrom .nothing cs := rfl

/-- The magnitude of a number is held as its numeral. -/
theorem ofNumeral_magnitudeText {v : Float} (h : v.isFinite = true) :
    ofNumeral (Number.magnitudeText (field v)) = number (ofField false (field v)) := by
  have hfield := (Binary64.isFinite_iff v).1 h
  have hread := lexFrom_nothing_numeral (Number.magnitudeText_ne_nil hfield) fun c hc =>
    inNumeral_iff.2 (Number.isDigit_or_point_of_mem_magnitudeText hfield c hc)
  rw [lexFrom_magnitudeText h] at hread
  exact (List.singleton_inj.1 hread).symm

section Negative

variable {v : Float} (h : v.isFinite = true) (hsign : isNegative v = true)

include h hsign

/-- A number below zero is evaluated in brackets. -/
theorem lexFrom_source_number (hzero : v < 0) (rest : List Char) :
    lexFrom .nothing ((Entry.number v).source.toList ++ rest) =
      opening :: operator .subtract :: number (ofField false (field v)) :: closing ::
        lexFrom .nothing rest := by
  have hopen (cs : List Char) : lexFrom .nothing ('(' :: cs) = opening :: lexFrom .nothing cs := rfl
  have hclose : lexFrom .nothing (')' :: rest) = closing :: lexFrom .nothing rest := rfl
  rw [(Entry.texts_of_isNegative h hsign).2, if_pos hzero, List.cons_append, List.cons_append,
    List.append_assoc, List.singleton_append, hopen, lexFrom_minus,
    lexFrom_append_cons (cuts_of rfl rfl (by decide)), lexFrom_magnitudeText h, hclose]
  rfl

/-- A number with a sign is shown without brackets, so a digit or a point would go on it. -/
theorem lexFrom_display_number (rest : List Char) :
    lexFrom .nothing ((Entry.number v).display.toList ++ rest) = operator .subtract ::
      lexFrom (.numeral (Number.magnitudeText (field v)).reverse) rest := by
  have hfield := (Binary64.isFinite_iff v).1 h
  have hdigits : ∀ c ∈ Number.magnitudeText (field v), inNumeral c = true := fun c hc =>
    inNumeral_iff.2 (Number.isDigit_or_point_of_mem_magnitudeText hfield c hc)
  have hread := (lexFrom_append_numeral (Number.magnitudeText_ne_nil hfield) hdigits rest).1
  rw [(Entry.texts_of_isNegative h hsign).1, List.cons_append, lexFrom_minus, hread]

end Negative

end Token

namespace Entry

open Token (inNumeral)

/-- Both texts begin with a digit or a point exactly if the entry is one of digits. -/
theorem exists_cons {e : Entry} (h : e.IsArithmetic) :
    (∃ c cs, e.source.toList = c :: cs ∧ inNumeral c = e.isNumeral ∧
      (c = '*' → e = operator .multiply)) ∧
    ∃ c cs, e.display.toList = c :: cs ∧ inNumeral c = e.isNumeral := by
  rcases h.cases with hnumeral | ⟨t, hsign⟩ | ⟨v, rfl, hfinite, hsign⟩
  · obtain ⟨ds, hne, hds, hsource, hdisplay⟩ := exists_numeral h hnumeral
    obtain ⟨c, cs, rfl⟩ := List.exists_cons_of_ne_nil hne
    have hc : inNumeral c = true := hds c (by simp)
    have hstar : c ≠ '*' := by
      rintro rfl
      cases hc
    exact ⟨⟨c, cs, hsource, hc.trans hnumeral.symm, fun h => absurd h hstar⟩, c, cs, hdisplay,
      hc.trans hnumeral.symm⟩
  · cases e with
    | operator op => cases op <;> exact ⟨⟨_, _, rfl, rfl, by decide⟩, _, _, rfl, rfl⟩
    | _ => first | exact ⟨⟨_, _, rfl, rfl, by decide⟩, _, _, rfl, rfl⟩ | cases hsign
  · obtain ⟨hdisplay, hsource⟩ := texts_of_isNegative hfinite hsign
    have hnumeral : (number v).isNumeral = false := by simp [isNumeral, hsign]
    rw [hnumeral]
    refine ⟨?_, _, _, hdisplay, rfl⟩
    split at hsource
    · exact ⟨_, _, hsource, rfl, fun h => absurd h (by decide)⟩
    · exact ⟨_, _, hsource, rfl, fun h => absurd h (by decide)⟩

variable {es : List Entry} (hes : ∀ e ∈ es, e.IsArithmetic)

include hes

/-- Both texts of a line go on a numeral exactly if its first entry does. -/
theorem head?_any_inNumeral :
    (sourceAll es).toList.head?.any inNumeral = es.head?.any isNumeral ∧
      (displayAll es).toList.head?.any inNumeral = es.head?.any isNumeral := by
  cases es with
  | nil => exact ⟨rfl, rfl⟩
  | cons e es =>
    obtain ⟨⟨c, cs, hsource, hc, -⟩, d, ds, hdisplay, hd⟩ := exists_cons (hes e (by simp))
    rw [toList_sourceAll_cons, toList_displayAll_cons, hsource, hdisplay]
    exact ⟨hc, hd⟩

/-- The text evaluated begins with a star only if the first entry is a multiplication. -/
theorem head?_sourceAll_ne_star (h : es.head? ≠ some (operator .multiply)) :
    (sourceAll es).toList.head? ≠ some '*' := by
  cases es with
  | nil => simp [sourceAll]
  | cons e es =>
    obtain ⟨⟨c, cs, hsource, -, hstar⟩, -⟩ := exists_cons (hes e (by simp))
    rw [toList_sourceAll_cons, hsource]
    intro hhead
    exact h (congrArg some (hstar (Option.some.inj hhead)))

end Entry

/-! ## No functions -/

namespace Token

/-- The character begins no word and is no root sign. -/
def Nameless (c : Char) : Prop := startsWord c = false ∧ c ≠ '√'

/-- Whether a character is nameless can be computed from it. -/
instance : DecidablePred Nameless := fun c =>
  inferInstanceAs (Decidable (startsWord c = false ∧ c ≠ '√'))

/-- A character that begins no name completes no function and leaves no word. -/
theorem start_of_nameless {c : Char} (h : Nameless c) :
    (∀ f, function f ∉ (start c).1) ∧ ∀ backwards, (start c).2 ≠ .word backwards := by
  have hsign {ts : List Token} (hts : ofSign? c = some ts) (f : MathFunction) :
      function f ∉ ts := by
    obtain ⟨-, hroot⟩ := h
    unfold ofSign? at hts
    split at hts
    case h_16 => exact absurd rfl hroot
    all_goals
      cases hts
      try simp
  rw [start]
  split
  case isTrue => exact ⟨by simp, by simp⟩
  case isFalse =>
    split
    case h_1 ts hts => exact ⟨hsign hts, by simp⟩
    case h_2 =>
      by_cases hstar : c = '*'
      · rw [if_pos hstar]
        exact ⟨by simp, by simp⟩
      rw [if_neg hstar, h.1, if_neg (by simp)]
      split <;> exact ⟨by simp, by simp⟩

/-- What is held completes no function, unless it is a word. -/
theorem Held.function_not_mem_tokens {held : Held} (h : ∀ backwards, held ≠ .word backwards)
    (f : MathFunction) : function f ∉ held.tokens := by
  cases held with
  | word ws => exact absurd rfl (h ws)
  | numeral ds =>
    simp only [Held.tokens, List.mem_singleton, ofNumeral]
    split <;> simp
  | _ => simp [Held.tokens]

/-- Where no character begins a name, no function is read. -/
theorem function_not_mem_lexFrom {held : Held} {cs : List Char} (hcs : ∀ c ∈ cs, Nameless c)
    (hheld : ∀ backwards, held ≠ .word backwards) (f : MathFunction) :
    function f ∉ lexFrom held cs := by
  fun_induction lexFrom held cs with
  | case1 held => exact held.function_not_mem_tokens hheld f
  | case2 held c cs grown hgrown ih =>
    refine ih (fun d hd => hcs d (by simp [hd])) fun ws hword => ?_
    subst hword
    cases held with
    | word cs => exact hheld cs rfl
    | numeral ds => cases (Option.ite_none_right_eq_some.1 hgrown).2
    | star => cases (Option.ite_none_right_eq_some.1 hgrown).2
    | _ => cases hgrown
  | case3 held c cs _ ih =>
    obtain ⟨hfunction, hword⟩ := start_of_nameless (hcs c (by simp))
    have hrest := ih (fun d hd => hcs d (by simp [hd])) hword
    simp only [List.mem_append, not_or]
    exact ⟨⟨held.function_not_mem_tokens hheld f, hfunction f⟩, hrest⟩

end Token

namespace Entry

open Token (Nameless)

/-- No character of the two texts of an entry of arithmetic begins a name. -/
theorem nameless_of_mem {e : Entry} (h : e.IsArithmetic) :
    (∀ c ∈ e.source.toList, Nameless c) ∧ ∀ c ∈ e.display.toList, Nameless c := by
  have hdigits {c : Char} (hc : Token.inNumeral c = true) : Nameless c := by
    rcases Token.inNumeral_iff.1 hc with hc | rfl
    · have all : ∀ k : Fin 10, Nameless (Decimal.digitChar k) := by decide
      obtain ⟨k, rfl⟩ := Decimal.exists_digitChar hc
      exact all k
    · decide
  have hchecked {cs : List Char} (hcs : (cs.all fun c => decide (Nameless c)) = true) :
      ∀ c ∈ cs, Nameless c := by simpa using hcs
  rcases h.cases with hnumeral | ⟨t, hsign⟩ | ⟨v, rfl, hfinite, hsign⟩
  · obtain ⟨ds, -, hds, hsource, hdisplay⟩ := exists_numeral h hnumeral
    rw [hsource, hdisplay]
    exact ⟨fun c hc => hdigits (hds c hc), fun c hc => hdigits (hds c hc)⟩
  · cases e with
    | operator op => cases op <;> exact ⟨hchecked rfl, hchecked rfl⟩
    | _ => first | exact ⟨hchecked rfl, hchecked rfl⟩ | cases hsign
  · have hfield := (Binary64.isFinite_iff v).1 hfinite
    have hmagnitude : ∀ c ∈ Number.magnitudeText (field v), Nameless c := fun c hc =>
      hdigits (Token.inNumeral_iff.2 (Number.isDigit_or_point_of_mem_magnitudeText hfield c hc))
    have hsigns : Nameless '-' ∧ Nameless '(' ∧ Nameless ')' := by decide
    obtain ⟨hdisplay, hsource⟩ := texts_of_isNegative hfinite hsign
    rw [hdisplay, hsource]
    refine ⟨?_, List.forall_mem_cons.2 ⟨hsigns.1, hmagnitude⟩⟩
    split
    · simpa [hsigns] using fun c hc => hc.elim (hmagnitude c) fun hc => hc ▸ hsigns.2.2
    · exact List.forall_mem_cons.2 ⟨hsigns.1, hmagnitude⟩

/-- No function is read from the two texts of a line of arithmetic. -/
theorem function_not_mem_lex {es : List Entry} (hes : ∀ e ∈ es, e.IsArithmetic)
    (f : MathFunction) :
    .function f ∉ Token.lex (sourceAll es) ∧ .function f ∉ Token.lex (displayAll es) := by
  have hall : (∀ c ∈ (sourceAll es).toList, Nameless c) ∧
      ∀ c ∈ (displayAll es).toList, Nameless c := by
    induction es with
    | nil => simp [sourceAll, displayAll]
    | cons e es ih =>
      obtain ⟨hsource, hdisplay⟩ := nameless_of_mem (hes e (by simp))
      obtain ⟨hsources, hdisplays⟩ := ih fun a ha => hes a (by simp [ha])
      rw [toList_sourceAll_cons, toList_displayAll_cons]
      exact ⟨List.forall_mem_append.2 ⟨hsource, hsources⟩,
        List.forall_mem_append.2 ⟨hdisplay, hdisplays⟩⟩
  exact ⟨Token.function_not_mem_lexFrom hall.1 (by simp) f,
    Token.function_not_mem_lexFrom hall.2 (by simp) f⟩

end Entry

end SciCalc
