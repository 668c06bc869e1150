import SciCalc.Proofs.Fusing
import SciCalc.Proofs.Nearest

/-!
# Tokens that go on

A token that goes on behind a cut is never read there as it is in two parts. Two stars are a power,
and one star is a product. A numeral that is cut becomes two. A word that is cut may leave digits
behind, which go on with a numeral that follows, and the two names of the decimal logarithm are one
token; but then the numeral has changed, and a number with ten wholes is not the number of its
fraction.
-/

set_option autoImplicit false

namespace SciCalc

/-! ## Ten wholes and a fraction -/

namespace Decimal

/-- Digits in front count as many places up as digits follow. -/
theorem ofDigits_append (ds es : List Char) :
    ofDigits (ds ++ es) = ofDigits ds * 10 ^ es.length + ofDigits es := by
  induction es using List.reverseRecOn with
  | nil => simp [ofDigits]
  | append_singleton es c ih =>
    rw [← List.append_assoc, ofDigits_append_singleton, ofDigits_append_singleton, ih,
      List.length_append, List.length_singleton, Nat.pow_succ]
    ring

/-- Digits spell less than the power of ten with one more. -/
theorem ofDigits_lt {ds : List Char} (h : ∀ c ∈ ds, c.isDigit = true) :
    ofDigits ds < 10 ^ ds.length := by
  induction ds using List.reverseRecOn with
  | nil => decide
  | append_singleton ds c ih =>
    obtain ⟨hds, hc⟩ := List.forall_mem_append.1 h
    obtain ⟨k, rfl⟩ := exists_digitChar (hc c (by simp))
    rw [ofDigits_append_singleton, toNat_digitChar k.isLt, List.length_append,
      List.length_singleton, Nat.pow_succ]
    have := ih hds
    omega

/-- The field of the number one. -/
def oneField : Nat := 1023 * Nat.pow 2 52

/-- The field of the number two. -/
def twoField : Nat := 1024 * Nat.pow 2 52

/-- A value up to one is rounded to at most one. -/
theorem field_le_oneField {n places : Nat} (h : n ≤ 10 ^ places) :
    field ⟨n, -places⟩ ≤ oneField := by
  have hone : Binary64.unitsOfField oneField = Binary64.unitsPerOne := by decide +kernel
  have hplaces : (-(-(places : Int))).toNat = places := by omega
  have hwhole : (-(places : Int)).toNat = 0 := by omega
  rw [field, if_neg (show ¬(400 : Int) < -places by omega)]
  split
  · exact Nat.zero_le _
  split
  · exact Nat.zero_le _
  rw [numerator, denominator, hplaces, hwhole]
  refine Binary64.nearestField_le (Nat.pow_pos (by decide)) ?_
  rw [hone, Nat.mul_comm Binary64.unitsPerOne, Nat.pow_eq, Nat.pow_zero, Nat.mul_one]
  exact Nat.mul_le_mul_right _ h

/-- A value from two on is rounded to at least two. -/
theorem twoField_le_field {n places : Nat} (h : 2 * 10 ^ places ≤ n) :
    twoField ≤ field ⟨n, -places⟩ := by
  have htwo : Binary64.unitsOfField twoField = 2 * Binary64.unitsPerOne := by decide +kernel
  have hinfinite : twoField ≤ Binary64.infinityField := by decide
  have hplaces : (-(-(places : Int))).toNat = places := by omega
  have hwhole : (-(places : Int)).toNat = 0 := by omega
  have hpow : 2 ^ places ≤ 10 ^ places := Nat.pow_le_pow_left (by decide) places
  have hpositive : 0 < 2 ^ places := Nat.two_pow_pos places
  have hn : n ≠ 0 := by omega
  have hlog : places ≤ n.log2 := (Nat.le_log2 hn).2 (by omega)
  rw [field, if_neg hn, if_neg (show ¬(400 : Int) < -places by omega),
    if_neg (show ¬(-(places : Int)) < -(n.log2 + 400 : Int) by omega), numerator, denominator,
    hplaces, hwhole]
  refine Binary64.le_nearestField (Nat.pow_pos (by decide)) hinfinite ?_
  rw [htwo, Nat.mul_right_comm, Nat.pow_eq, Nat.pow_zero, Nat.mul_one]
  exact Nat.mul_le_mul_right _ h

/-- Behind a point only digits are read, and they are a fraction. -/
theorem eq_of_read?_point {cs : List Char} (h : ∀ c ∈ cs, c.isDigit = true ∨ c = '.')
    {d : Decimal} (hd : read? ('.' :: cs) = some d) :
    (∀ c ∈ cs, c.isDigit = true) ∧ d = ⟨ofDigits cs, -cs.length⟩ := by
  obtain ⟨-, hd⟩ := Option.ite_none_left_eq_some.1 hd
  obtain ⟨e, he, rfl⟩ := Option.map_eq_some_iff.1 hd
  have hsplit : cs.takeWhile Char.isDigit ++ cs.dropWhile Char.isDigit = cs :=
    List.takeWhile_append_dropWhile
  have he : exponentPart? (cs.dropWhile Char.isDigit) = some e := he
  -- A second point would have to start an exponent.
  have hrest : cs.dropWhile Char.isDigit = [] := by
    cases hrest : cs.dropWhile Char.isDigit with
    | nil => rfl
    | cons c rest =>
      have hdigit : c.isDigit = false := by
        have hhead := List.head?_dropWhile_not Char.isDigit cs
        rwa [hrest] at hhead
      obtain rfl : c = '.' := by
        have hc := h c (hsplit ▸ by simp [hrest])
        simpa [hdigit] using hc
      rw [hrest] at he
      unfold exponentPart? at he
      simp at he
  rw [hrest] at he
  obtain rfl : 0 = e := Option.some.inj he
  rw [hrest, List.append_nil] at hsplit
  refine ⟨List.takeWhile_eq_self_iff.1 hsplit, ?_⟩
  show Decimal.mk (ofDigits (cs.takeWhile Char.isDigit))
    (0 - (cs.takeWhile Char.isDigit).length) = _
  rw [hsplit, Int.zero_sub]

end Decimal

namespace Token

open Binary64 (ofField)

/-- A number with ten wholes is not the number of its fraction. -/
theorem ofNumeral_ten_point_ne {ds : List Char} (h : ∀ c ∈ ds, inNumeral c = true) :
    ofNumeral ('1' :: '0' :: '.' :: ds) ≠ ofNumeral ('.' :: ds) := by
  have hds (c : Char) (hc : c ∈ ds) : c.isDigit = true ∨ c = '.' := inNumeral_iff.1 (h c hc)
  have hread {cs : List Char} (hcs : ∀ c ∈ cs, c.isDigit = true ∨ c = '.') :
      Number.ofChars? cs = (Decimal.read? cs).map fun d => ofField false d.field := by
    rw [Number.ofChars?_of_isDigit_or_point hcs, Number.unsigned?, Number.special?_eq_none hcs,
      Option.none_or]
  have hten : ∀ c ∈ '1' :: '0' :: '.' :: ds, c.isDigit = true ∨ c = '.' := by
    simpa using hds
  have hpoint : ∀ c ∈ '.' :: ds, c.isDigit = true ∨ c = '.' := by simpa using hds
  rw [ofNumeral, ofNumeral, hread hten, hread hpoint]
  rcases hfraction : Decimal.read? ('.' :: ds) with _ | d
  · -- A run that is no number is kept as it is written.
    rcases Decimal.read? ('1' :: '0' :: '.' :: ds) with _ | e
    · intro heq
      have hlength := congrArg List.length (String.ofList_injective (unknown.inj heq))
      simp at hlength
      omega
    · exact Token.noConfusion
  · obtain ⟨hdigits, rfl⟩ := Decimal.eq_of_read?_point hds hfraction
    have hwhole := @Decimal.read?_point ['1', '0'] ds (by simp) (by simp) hdigits
    rw [show '1' :: '0' :: '.' :: ds = ['1', '0'] ++ '.' :: ds from rfl, hwhole]
    have hlt := Decimal.ofDigits_lt hdigits
    have hsum : Decimal.ofDigits (['1', '0'] ++ ds) = 10 * 10 ^ ds.length + Decimal.ofDigits ds :=
      Decimal.ofDigits_append ['1', '0'] ds
    have hsmall := Decimal.field_le_oneField (Nat.le_of_lt hlt)
    have hlarge := Decimal.twoField_le_field
      (show 2 * 10 ^ ds.length ≤ Decimal.ofDigits (['1', '0'] ++ ds) by omega)
    have hone : Decimal.oneField < Decimal.twoField := by decide
    intro heq
    have hfields := congrArg Binary64.field (number.inj heq)
    rw [Binary64.field_ofField (Decimal.field_le _), Binary64.field_ofField (Decimal.field_le _)]
      at hfields
    omega

end Token

/-! ## Names -/

namespace Token

/-- The words for a token, in small letters. Only the decimal logarithm has two, one with its base
behind the other. -/
def words : Token → List String
  | pi => ["pi"]
  | answer => ["ans"]
  | function f => if f = .log then ["log", "log10"] else [f.name.map Char.toLower]
  | _ => []

/-- A function is found under its words. -/
theorem mem_words_of_ofName? {word : String} {f : MathFunction}
    (h : MathFunction.ofName? word = some f) : word ∈ (function f).words := by
  unfold MathFunction.ofName? at h
  split at h <;> cases h <;> decide +kernel

/-- A word is one of those for its token, or it is kept as it is written. -/
theorem mem_words_ofWord (cs : List Char) :
    String.ofList (cs.map Char.toLower) ∈ (ofWord cs).words ∨
      ofWord cs = unknown (String.ofList cs) := by
  unfold ofWord
  by_cases hpi : String.ofList (cs.map Char.toLower) = "pi"
  · simp [hpi, words]
  by_cases hanswer : String.ofList (cs.map Char.toLower) = "ans"
  · simp [hanswer, words]
  simp only [if_neg hpi, if_neg hanswer]
  cases hname : MathFunction.ofName? (String.ofList (cs.map Char.toLower)) with
  | none => exact .inr rfl
  | some f => exact .inl (mem_words_of_ofName? hname)

/-- Of two words for a token, the longer one is that of the logarithm with its base. -/
theorem eq_of_mem_words {t : Token} {word word' : String} (h : word ∈ t.words)
    (h' : word' ∈ t.words) (hlength : word.length < word'.length) :
    word = "log" ∧ word' = "log10" := by
  have hsingle {only : String} (h : word ∈ [only]) (h' : word' ∈ [only]) :
      word = "log" ∧ word' = "log10" := by
    rw [List.mem_singleton.1 h, List.mem_singleton.1 h'] at hlength
    exact absurd hlength (Nat.lt_irrefl _)
  cases t with
  | pi => exact hsingle h h'
  | answer => exact hsingle h h'
  | function f =>
    by_cases hlog : f = .log
    · have hcases : (word = "log" ∨ word = "log10") ∧ (word' = "log" ∨ word' = "log10") := by
        simpa [words, hlog] using And.intro h h'
      obtain ⟨rfl | rfl, rfl | rfl⟩ := hcases
      · exact absurd hlength (by decide)
      · exact ⟨rfl, rfl⟩
      · exact absurd hlength (by decide)
      · exact absurd hlength (by decide)
    · rw [words, if_neg hlog] at h h'
      exact hsingle h h'
  | _ => exact absurd h List.not_mem_nil

/-- Only capital letters have another small form. -/
theorem eq_of_toLower_eq {c d : Char} (hd : d.isLower = false) (h : c.toLower = d) : c = d := by
  by_cases hupper : c.val ≥ 'A'.val ∧ c.val ≤ 'Z'.val
  · have all : ∀ k : Fin 26, (Char.ofNat (65 + k)).toLower.isLower = true := by decide
    have hfirst : 65 ≤ c.toNat := UInt32.le_iff_toNat_le.1 hupper.1
    have hlast : c.toNat ≤ 90 := UInt32.le_iff_toNat_le.1 hupper.2
    have hlower := all ⟨c.toNat - 65, by omega⟩
    rw [Nat.add_sub_cancel' hfirst, Char.ofNat_toNat, h, hd] at hlower
    cases hlower
  · rw [← h, Char.toLower, dif_neg hupper]

/-- A longer word with the same token has the base of the logarithm behind its name. -/
theorem eq_ten_of_ofWord_append {cs ds : List Char} (hne : ds ≠ [])
    (h : ofWord (cs ++ ds) = ofWord cs) : ds = ['1', '0'] := by
  have hlength : 0 < ds.length := List.length_pos_of_ne_nil hne
  rcases mem_words_ofWord cs with hshort | hshort <;>
    rcases mem_words_ofWord (cs ++ ds) with hlong | hlong
  · rw [h] at hlong
    obtain ⟨hlog, hten⟩ := eq_of_mem_words hshort hlong (by simpa using hlength)
    rw [List.map_append, String.ofList_append, hlog] at hten
    have hsmall : ds.map Char.toLower = ['1', '0'] := by
      simpa using congrArg String.toList hten
    obtain ⟨one, rest, rfl, hone, hrest⟩ := List.map_eq_cons_iff.1 hsmall
    obtain ⟨zero, rfl, hzero⟩ := List.map_eq_singleton_iff.1 hrest
    rw [eq_of_toLower_eq rfl hone, eq_of_toLower_eq rfl hzero]
  · rw [← h, hlong] at hshort
    exact absurd hshort List.not_mem_nil
  · rw [h, hshort] at hlong
    exact absurd hlong List.not_mem_nil
  · rw [hshort, hlong] at h
    have heq := congrArg List.length (String.ofList_injective (unknown.inj h))
    rw [List.length_append] at heq
    omega

/-! ## Reading on -/

/-- The characters in front that belong to a token, and what follows them. -/
theorem exists_run (p : Char → Bool) (cs : List Char) :
    ∃ run rest, cs = run ++ rest ∧ (∀ c ∈ run, p c = true) ∧ ∀ c ∈ rest.head?, p c = false := by
  refine ⟨cs.takeWhile p, cs.dropWhile p, List.takeWhile_append_dropWhile.symm,
    fun c hc => List.mem_takeWhile_imp hc, fun c hc => ?_⟩
  have hhead := List.head?_dropWhile_not p cs
  rwa [Option.mem_def.1 hc] at hhead

/-- A run of digits and points is one numeral, and what follows is read on its own. -/
theorem lexFrom_nothing_numeral_append {run rest : List Char} (hne : run ≠ [])
    (hrun : ∀ c ∈ run, inNumeral c = true) (hrest : ∀ c ∈ rest.head?, inNumeral c = false) :
    lexFrom .nothing (run ++ rest) = ofNumeral run :: lexFrom .nothing rest := by
  rw [(lexFrom_append_numeral hne hrun rest).1, lexFrom_numeral_of_head? hrest,
    List.reverse_reverse]

/-- A word takes all the letters, digits and `_` that follow, and the rest is read on its own. -/
theorem lexFrom_word_append {run rest : List Char} (hrun : ∀ c ∈ run, continuesWord c = true)
    (hrest : ∀ c ∈ rest.head?, continuesWord c = false) (backwards : List Char) :
    lexFrom (.word backwards) (run ++ rest) =
      ofWord (backwards.reverse ++ run) :: lexFrom .nothing rest := by
  induction run generalizing backwards with
  | nil =>
    rw [List.nil_append, List.append_nil]
    cases rest with
    | nil => rfl
    | cons c rest =>
      have hextend : Held.extend? (.word backwards) c = none := if_neg (by simp [hrest c rfl])
      exact lexFrom_of_extend?_eq_none rest hextend
  | cons c run ih =>
    have hextend : Held.extend? (.word backwards) c = some (.word (c :: backwards)) :=
      if_pos (hrun c (by simp))
    rw [List.cons_append, lexFrom, hextend]
    show lexFrom (.word (c :: backwards)) (run ++ rest) = _
    rw [ih fun d hd => hrun d (by simp [hd])]
    simp

/-- A double star is complete. -/
theorem lexFrom_doubleStar (cs : List Char) :
    lexFrom .doubleStar cs = operator .raise :: lexFrom .nothing cs := by
  cases cs with
  | nil => rfl
  | cons c cs => exact lexFrom_of_extend?_eq_none cs rfl

/-- Behind a word, the ten that ends another name of its token would change what follows. -/
theorem lexFrom_ten_append_ne {rest : List Char}
    (hrest : ∀ c ∈ rest.head?, continuesWord c = false) :
    lexFrom .nothing ('1' :: '0' :: rest) ≠ lexFrom .nothing rest := by
  obtain ⟨run, after, rfl, hrun, hafter⟩ := exists_run inNumeral rest
  have hten : ∀ c ∈ '1' :: '0' :: run, inNumeral c = true := by
    have hfirst : inNumeral '1' = true ∧ inNumeral '0' = true := by decide
    simpa [hfirst] using hrun
  have hread : lexFrom .nothing ('1' :: '0' :: (run ++ after)) =
      ofNumeral ('1' :: '0' :: run) :: lexFrom .nothing after :=
    lexFrom_nothing_numeral_append (List.cons_ne_nil _ _) hten hafter
  rw [hread]
  cases run with
  | nil => exact fun heq => List.cons_ne_self _ _ heq
  | cons c ds =>
    -- A digit would have gone on with the word, so the fraction starts with its point.
    obtain rfl : c = '.' := by
      have hword : continuesWord c = false := hrest c rfl
      have hdigit : c.isDigit = false := by
        simp [continuesWord, Char.isAlphanum] at hword
        exact hword.1.2
      simpa [inNumeral, hdigit] using hrun c (by simp)
    rw [lexFrom_nothing_numeral_append (List.cons_ne_nil _ _) hrun hafter]
    exact fun heq => ofNumeral_ten_point_ne (fun d hd => hrun d (by simp [hd]))
      (List.cons.inj heq).1

/-- A token that is held and goes on is never read as it is in two parts. -/
theorem lexFrom_ne_of_extend? {held grown : Held} {c : Char} (h : held.extend? c = some grown)
    (cs : List Char) : lexFrom held (c :: cs) ≠ held.tokens ++ lexFrom .nothing (c :: cs) := by
  cases held with
  | nothing => cases h
  | doubleStar => cases h
  | star =>
    obtain ⟨rfl, -⟩ := Option.ite_none_right_eq_some.1 h
    have hread : lexFrom .star ('*' :: cs) = lexFrom .doubleStar cs := rfl
    rw [hread, lexFrom_doubleStar]
    exact fun heq => nomatch (List.cons.inj heq).1
  | numeral backwards =>
    obtain ⟨hc, -⟩ := Option.ite_none_right_eq_some.1 h
    obtain ⟨run, rest, rfl, hrun, hrest⟩ := exists_run inNumeral cs
    have hall : ∀ d ∈ c :: run, inNumeral d = true := List.forall_mem_cons.2 ⟨hc, hrun⟩
    have hwhole := (lexFrom_append_numeral (List.cons_ne_nil c run) hall rest).2 backwards
    have hpart := lexFrom_nothing_numeral_append (List.cons_ne_nil c run) hall hrest
    rw [List.cons_append] at hwhole hpart
    rw [hwhole, hpart, lexFrom_numeral_of_head? hrest]
    intro heq
    have hlength := congrArg List.length heq
    simp [Held.tokens] at hlength
  | word backwards =>
    obtain ⟨hc, -⟩ := Option.ite_none_right_eq_some.1 h
    obtain ⟨run, rest, rfl, hrun, hrest⟩ := exists_run continuesWord cs
    have hall : ∀ d ∈ c :: run, continuesWord d = true := List.forall_mem_cons.2 ⟨hc, hrun⟩
    have hwhole := lexFrom_word_append hall hrest backwards
    rw [List.cons_append] at hwhole
    rw [hwhole]
    intro heq
    obtain ⟨hname, hfollow⟩ := List.cons.inj heq
    have hten := eq_ten_of_ofWord_append (List.cons_ne_nil c run) hname
    obtain ⟨rfl, rfl⟩ := List.cons.inj hten
    exact lexFrom_ten_append_ne hrest hfollow.symm

end Token

end SciCalc
