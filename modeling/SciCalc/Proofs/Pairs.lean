import SciCalc.Proofs.EntryTexts
import SciCalc.Proofs.Nesting
import SciCalc.Session

/-!
# The pair of the root key

The root key reads the text of the line as two numbers around a comma. A number may stand in one
pair of brackets, with blanks around the brackets and just inside them. The text of a number has
neither blanks nor brackets nor commas, so these forms are all that is read: a text is a pair
exactly if it is two such forms of finite numbers around a comma. The entries of two numbers around
a comma are of this form, also below zero. And what is read has one comma and matching brackets.
-/

set_option autoImplicit false

namespace SciCalc

/-! ## The characters of a number -/

/-- A character that the text of a number may have: a letter, a digit, a point or a sign. -/
def Number.mayHave (c : Char) : Bool := c.isAlphanum || c == '.' || c == '+' || c == '-'

/-- A character whose small form is a letter is a letter. -/
theorem Number.isAlpha_of_toLower {c : Char} (h : c.toLower.isLower = true) : c.isAlpha = true := by
  by_cases hupper : c.val ≥ 'A'.val ∧ c.val ≤ 'Z'.val
  · exact Bool.or_eq_true_iff.2 (.inl (decide_eq_true hupper))
  · rw [Char.toLower, dif_neg hupper] at h
    exact Bool.or_eq_true_iff.2 (.inr h)

namespace Decimal

open Number (mayHave)

/-- The text of a number may have any digit. -/
theorem mayHave_of_isDigit {c : Char} (h : c.isDigit = true) : mayHave c = true := by
  simp [mayHave, Char.isAlphanum, h]

/-- A natural number is spelled by digits. -/
theorem mayHave_of_natural? {cs : List Char} {n : Nat} (h : natural? cs = some n) :
    ∀ c ∈ cs, mayHave c = true := by
  obtain ⟨⟨-, hdigits⟩, -⟩ := Option.ite_none_right_eq_some.1 h
  exact fun c hc => mayHave_of_isDigit (List.all_eq_true.1 hdigits c hc)

/-- The characters of an exponent part are those of a number. -/
theorem mayHave_of_exponentPart? {cs : List Char} {e : Int} (h : exponentPart? cs = some e) :
    ∀ c ∈ cs, mayHave c = true := by
  cases cs with
  | nil => simp
  | cons c cs =>
    unfold exponentPart? at h
    obtain ⟨hletter, h⟩ := Option.ite_none_right_eq_some.1 h
    have hc : mayHave c = true := by
      rcases hletter with rfl | rfl <;> decide
    refine List.forall_mem_cons.2 ⟨hc, ?_⟩
    have hnatural {ds : List Char} {f : Int → Int}
        (h : ((natural? ds).bind fun n => some (n : Int)).map f = some e) :
        ∀ d ∈ ds, mayHave d = true := by
      obtain ⟨m, hm, -⟩ := Option.map_eq_some_iff.1 h
      obtain ⟨n, hn, -⟩ := Option.bind_eq_some_iff.1 hm
      exact mayHave_of_natural? hn
    split at h
    case h_1 => exact List.forall_mem_cons.2 ⟨by decide, hnatural h⟩
    case h_2 => exact List.forall_mem_cons.2 ⟨by decide, hnatural h⟩
    case h_3 => exact hnatural h

/-- The digits behind the point and what follows them are the text, but for the point. -/
theorem mem_fractionPart {cs : List Char} {c : Char} (h : c ∈ cs) :
    c = '.' ∨ c ∈ (fractionPart cs).1 ∨ c ∈ (fractionPart cs).2 := by
  unfold fractionPart
  split
  case h_1 cs =>
    refine (List.mem_cons.1 h).imp_right fun h => ?_
    rw [← List.mem_append, List.takeWhile_append_dropWhile]
    exact h
  case h_2 => exact .inr (.inr h)

/-- The digits behind the point are digits. -/
theorem isDigit_of_mem_fractionPart {cs : List Char} {c : Char} (h : c ∈ (fractionPart cs).1) :
    c.isDigit = true := by
  unfold fractionPart at h
  split at h
  case h_1 => exact List.mem_takeWhile_imp h
  case h_2 => cases h

/-- The characters of a decimal are those of a number. -/
theorem mayHave_of_read? {cs : List Char} {d : Decimal} (h : read? cs = some d) :
    ∀ c ∈ cs, mayHave c = true := by
  intro c hc
  obtain ⟨e, he, -⟩ := Option.map_eq_some_iff.1 (Option.ite_none_left_eq_some.1 h).2
  rw [← List.takeWhile_append_dropWhile (p := Char.isDigit) (l := cs), List.mem_append] at hc
  rcases hc with hwhole | hrest
  · exact mayHave_of_isDigit (List.mem_takeWhile_imp hwhole)
  rcases mem_fractionPart hrest with rfl | hfraction | hexponent
  · decide
  · exact mayHave_of_isDigit (isDigit_of_mem_fractionPart hfraction)
  · exact mayHave_of_exponentPart? he c hexponent

end Decimal

namespace Number

/-- The word for an infinity or a NaN has letters only. -/
theorem mayHave_of_special? {negative : Bool} {cs : List Char} {v : Float}
    (h : special? negative cs = some v) : ∀ c ∈ cs, mayHave c = true := by
  have hword {word : String} (hlower : ∀ d ∈ word.toList, d.isLower = true)
      (hcs : cs.map Char.toLower = word.toList) : ∀ c ∈ cs, mayHave c = true := by
    intro c hc
    have halpha : c.isAlpha = true :=
      isAlpha_of_toLower (hlower _ (hcs ▸ List.mem_map_of_mem hc))
    simp [mayHave, Char.isAlphanum, halpha]
  rw [special?] at h
  split at h
  case isTrue hinfinity => exact hinfinity.elim (hword (by simp)) (hword (by simp))
  case isFalse => exact hword (by simp) (Option.ite_none_right_eq_some.1 h).1

/-- What is read as a number has only characters of numbers. -/
theorem mayHave_of_ofChars? {cs : List Char} {v : Float} (h : ofChars? cs = some v) :
    ∀ c ∈ cs, mayHave c = true := by
  have hunsigned {negative : Bool} {cs : List Char} (h : unsigned? negative cs = some v) :
      ∀ c ∈ cs, mayHave c = true := by
    rcases Option.or_eq_some_iff.1 h with hspecial | ⟨-, hread⟩
    · exact mayHave_of_special? hspecial
    · obtain ⟨d, hd, -⟩ := Option.map_eq_some_iff.1 hread
      exact Decimal.mayHave_of_read? hd
  unfold ofChars? at h
  split at h
  case h_1 => exact List.forall_mem_cons.2 ⟨by decide, hunsigned h⟩
  case h_2 => exact List.forall_mem_cons.2 ⟨by decide, hunsigned h⟩
  case h_3 => exact hunsigned h

/-- No text is read as a number if it is empty. -/
theorem ne_nil_of_ofChars? {cs : List Char} {v : Float} (h : ofChars? cs = some v) : cs ≠ [] := by
  rintro rfl
  cases h

/-- The characters of numbers are no blanks, brackets or commas. -/
theorem separate_of_mayHave {c : Char} (h : mayHave c = true) :
    Text.isBlank c = false ∧ c ≠ '(' ∧ c ≠ ')' ∧ c ≠ ',' := by
  have hblank : Text.isBlank c = false := by
    have hrange : 0x20 < c.toNat ∧ c.toNat < 0x85 := by
      simp only [mayHave, Char.isAlphanum, Bool.or_eq_true, beq_iff_eq] at h
      rcases h with (((halpha | hdigit) | rfl) | rfl) | rfl
      · exact Token.toNat_of_isAlpha halpha
      · exact Token.toNat_of_isDigit hdigit
      all_goals decide
    rw [Bool.eq_false_iff]
    intro hblank
    simp [Text.isBlank, Text.blankRanges] at hblank
    omega
  refine ⟨hblank, ?_, ?_, ?_⟩
  all_goals
    rintro rfl
    cases h

end Number

/-! ## Blanks around characters -/

namespace Text

/-- The second text is the first with blanks around it. -/
def Padded (cs text : List Char) : Prop :=
  ∃ first last, (∀ c ∈ first, isBlank c = true) ∧ (∀ c ∈ last, isBlank c = true) ∧
    text = first ++ (cs ++ last)

/-- A text is itself with no blanks around it. -/
theorem Padded.refl (cs : List Char) : Padded cs cs := ⟨[], [], by simp, by simp, by simp⟩

/-- Blanks around blanks are blanks around. -/
theorem Padded.trans {cs inner text : List Char} (h : Padded cs inner) (h' : Padded inner text) :
    Padded cs text := by
  obtain ⟨first, last, hfirst, hlast, rfl⟩ := h
  obtain ⟨first', last', hfirst', hlast', rfl⟩ := h'
  exact ⟨first' ++ first, last ++ last', List.forall_mem_append.2 ⟨hfirst', hfirst⟩,
    List.forall_mem_append.2 ⟨hlast, hlast'⟩, by simp⟩

/-- A text is its trimmed text with blanks around it. -/
theorem padded_trimChars (cs : List Char) : Padded (trimChars cs) cs := by
  obtain ⟨first, last, hcs, hfirst, hlast⟩ := exists_blanks_around cs
  exact ⟨first, last, hfirst, hlast, hcs⟩

/-- A character of a padded text is a blank or one of the text's. -/
theorem Padded.mem {cs text : List Char} (h : Padded cs text) {c : Char} (hc : c ∈ text) :
    isBlank c = true ∨ c ∈ cs := by
  obtain ⟨first, last, hfirst, hlast, rfl⟩ := h
  rcases List.mem_append.1 hc with hc | hc
  · exact .inl (hfirst c hc)
  · exact (List.mem_append.1 hc).symm.imp_left (hlast c)

/-- Blanks in front are dropped, up to the first other character. -/
theorem dropWhile_blanks_append {blanks cs : List Char} (h : ∀ c ∈ blanks, isBlank c = true)
    (hcs : ∀ c ∈ cs.head?, isBlank c = false) : (blanks ++ cs).dropWhile isBlank = cs := by
  rw [List.dropWhile_append_of_pos h]
  cases cs with
  | nil => rfl
  | cons c cs => exact List.dropWhile_cons_of_neg (by simp [hcs c rfl])

/-- Trimming takes the blanks away again, if there are none at the ends of the text. -/
theorem trimChars_of_padded {cs text : List Char} (h : Padded cs text) (hne : cs ≠ [])
    (hfirst : ∀ c ∈ cs.head?, isBlank c = false) (hlast : ∀ c ∈ cs.getLast?, isBlank c = false) :
    trimChars text = cs := by
  obtain ⟨before, behind, hbefore, hbehind, rfl⟩ := h
  have hhead : ∀ c ∈ (cs ++ behind).head?, isBlank c = false := by
    rwa [List.head?_append_of_ne_nil _ hne]
  have hreversed : ∀ c ∈ cs.reverse.head?, isBlank c = false := by
    rwa [List.head?_reverse]
  rw [trimChars, dropWhile_blanks_append hbefore hhead, List.reverse_append,
    dropWhile_blanks_append (fun c hc => hbehind c (List.mem_reverse.1 hc)) hreversed,
    List.reverse_reverse]

end Text

/-! ## Numbers with blanks and brackets -/

namespace Root

open Text (isBlank trimChars Padded)
open Number (ofChars?)

/-- A form of a number: its text, perhaps in one pair of brackets, with blanks around either. -/
def Spells (v : Float) (text : List Char) : Prop :=
  ∃ n, ofChars? n = some v ∧
    (Padded n text ∨ ∃ inside, Padded n inside ∧ Padded ('(' :: (inside ++ [')'])) text)

/-- The text of a number is trimmed. -/
theorem trimChars_of_ofChars? {n text : List Char} {v : Float} (hn : ofChars? n = some v)
    (h : Padded n text) : trimChars text = n := by
  have hblank (c : Char) (hc : c ∈ n) : isBlank c = false :=
    (Number.separate_of_mayHave (Number.mayHave_of_ofChars? hn c hc)).1
  exact Text.trimChars_of_padded h (Number.ne_nil_of_ofChars? hn)
    (fun c hc => hblank c (List.mem_of_head? hc)) fun c hc => hblank c (List.mem_of_getLast? hc)

/-- One pair of brackets is taken off. -/
theorem stripBrackets_brackets (inside : List Char) :
    stripBrackets ('(' :: (inside ++ [')'])) = inside := by
  simp [stripBrackets]

/-- Nothing is taken off but one pair of brackets. -/
theorem stripBrackets_cases (cs : List Char) :
    stripBrackets cs = cs ∨ cs = '(' :: (stripBrackets cs ++ [')']) := by
  unfold stripBrackets
  split
  case h_1 rest =>
    split
    case isTrue hlast =>
      obtain ⟨inside, rfl⟩ := List.getLast?_eq_some_iff.1 hlast
      exact .inr (by simp)
    case isFalse => exact .inl rfl
  case h_2 => exact .inl rfl

/-- A text is read as a number exactly if it is one of its forms. -/
theorem operand?_eq_some_iff {cs : List Char} {v : Float} :
    operand? cs = some v ↔ Spells v cs := by
  constructor
  · intro h
    refine ⟨_, h, ?_⟩
    have houter := Text.padded_trimChars cs
    have hinner := Text.padded_trimChars (stripBrackets (trimChars cs))
    rcases stripBrackets_cases (trimChars cs) with hsame | hbrackets
    · rw [hsame] at hinner ⊢
      exact .inl (hinner.trans houter)
    · rw [hbrackets] at houter
      exact .inr ⟨_, hinner, houter⟩
  · rintro ⟨n, hn, hplain | ⟨inside, hinside, hbrackets⟩⟩
    · have hstrip : stripBrackets n = n := by
        refine (stripBrackets_cases n).resolve_right fun hbracket => ?_
        have hmem : '(' ∈ n := by
          rw [hbracket]
          exact List.mem_cons_self
        exact (Number.separate_of_mayHave (Number.mayHave_of_ofChars? hn _ hmem)).2.1 rfl
      rw [operand?, trimChars_of_ofChars? hn hplain, hstrip,
        trimChars_of_ofChars? hn (.refl n)]
      exact hn
    · have hopening : isBlank '(' = false := by decide
      have hclosing : isBlank ')' = false := by decide
      have hlast : ('(' :: (inside ++ [')'])).getLast? = some ')' := by
        rw [← List.cons_append, List.getLast?_concat]
      have htrim : trimChars cs = '(' :: (inside ++ [')']) :=
        Text.trimChars_of_padded hbrackets (by simp) (by simp [hopening])
          (by simp [hlast, hclosing])
      rw [operand?, htrim, stripBrackets_brackets, trimChars_of_ofChars? hn hinside]
      exact hn

/-! ## Commas and brackets -/

/-- The brackets among characters. -/
def brackets (cs : List Char) : List Token :=
  cs.filterMap fun c =>
    if c = '(' then some .opening else if c = ')' then some .closing else none

/-- The brackets of joined texts are the joined brackets. -/
theorem brackets_append (cs ds : List Char) : brackets (cs ++ ds) = brackets cs ++ brackets ds :=
  List.filterMap_append

/-- Characters without brackets have none among them. -/
theorem brackets_eq_nil {cs : List Char} (h : ∀ c ∈ cs, c ≠ '(' ∧ c ≠ ')') : brackets cs = [] := by
  refine List.filterMap_eq_nil_iff.2 fun c hc => ?_
  rw [if_neg (h c hc).1, if_neg (h c hc).2]

/-- Blanks around characters are no brackets. -/
theorem brackets_of_padded {cs text : List Char} (h : Padded cs text) :
    brackets text = brackets cs := by
  have hblank {blanks : List Char} (hblanks : ∀ c ∈ blanks, isBlank c = true) :
      brackets blanks = [] := by
    refine brackets_eq_nil fun c hc => ⟨?_, ?_⟩
    all_goals
      rintro rfl
      cases hblanks _ hc
  obtain ⟨first, last, hfirst, hlast, rfl⟩ := h
  rw [brackets_append, brackets_append, hblank hfirst, hblank hlast, List.nil_append,
    List.append_nil]

/-- A form of a number has no comma, and at most one pair of brackets. -/
theorem Spells.separate {v : Float} {text : List Char} (h : Spells v text) :
    ',' ∉ text ∧ Token.Matched (brackets text) := by
  obtain ⟨n, hn, h⟩ := h
  have hchars (c : Char) (hc : c ∈ n) :=
    Number.separate_of_mayHave (Number.mayHave_of_ofChars? hn c hc)
  have hnone : brackets n = [] :=
    brackets_eq_nil fun c hc => ⟨(hchars c hc).2.1, (hchars c hc).2.2.1⟩
  have hcomma {cs text : List Char} (h : Padded cs text) (hcs : ',' ∉ cs) : ',' ∉ text :=
    fun hmem => (h.mem hmem).elim (by decide) hcs
  have hn : ',' ∉ n := fun hmem => (hchars _ hmem).2.2.2 rfl
  rcases h with hplain | ⟨inside, hinside, hbrackets⟩
  · refine ⟨hcomma hplain hn, ?_⟩
    rw [brackets_of_padded hplain, hnone]
    rfl
  · refine ⟨hcomma hbrackets (by simp [hcomma hinside hn]), ?_⟩
    have hpair : brackets ('(' :: (inside ++ [')'])) =
        .opening :: (brackets inside ++ [.closing]) := by
      simp [brackets]
    rw [brackets_of_padded hbrackets, hpair, brackets_of_padded hinside, hnone]
    rfl

/-! ## Pairs -/

/-- The first comma of a text is where it is cut in two. -/
theorem cut_at_comma {first : List Char} (h : ',' ∉ first) (second : List Char) :
    (first ++ ',' :: second).takeWhile (· != ',') = first ∧
      (first ++ ',' :: second).dropWhile (· != ',') = ',' :: second := by
  have hall : ∀ c ∈ first, (c != ',') = true := fun c hc => bne_iff_ne.2 fun heq => h (heq ▸ hc)
  constructor
  · rw [List.takeWhile_append_of_pos hall, List.takeWhile_cons_of_neg (by simp), List.append_nil]
  · rw [List.dropWhile_append_of_pos hall, List.dropWhile_cons_of_neg (by simp)]

/-- Characters are a pair exactly if they are two forms of finite numbers around a comma. -/
theorem pair?_eq_some_iff {cs : List Char} {x y : Float} :
    pair? cs = some (x, y) ↔
      ∃ first second, cs = first ++ ',' :: second ∧ Spells x first ∧ Spells y second ∧
        x.isFinite = true ∧ y.isFinite = true := by
  constructor
  · intro h
    unfold pair? at h
    split at h
    case h_1 after hafter =>
      split at h
      case h_1 x' y' hx hy =>
        obtain ⟨hfinite, hpair⟩ := Option.ite_none_right_eq_some.1 h
        obtain ⟨rfl, rfl⟩ := Prod.mk.inj (Option.some.inj hpair)
        obtain ⟨hx', hy'⟩ := Bool.and_eq_true_iff.1 hfinite
        refine ⟨_, after, ?_, operand?_eq_some_iff.1 hx, operand?_eq_some_iff.1 hy, hx', hy'⟩
        rw [← hafter, List.takeWhile_append_dropWhile]
      case h_2 => cases h
    case h_2 => cases h
  · rintro ⟨first, second, rfl, hx, hy, hfinite, hfinite'⟩
    obtain ⟨htake, hdrop⟩ := cut_at_comma hx.separate.1 second
    rw [pair?, hdrop]
    simp only [htake, operand?_eq_some_iff.2 hx, operand?_eq_some_iff.2 hy, hfinite, hfinite',
      Bool.and_self, if_true]

/-- A pair is read exactly if two forms of finite numbers stand around a comma. -/
theorem readPair_eq_ok_iff {text : String} {x y : Float} :
    readPair text = .ok (x, y) ↔
      ∃ first second, text.toList = first ++ ',' :: second ∧ Spells x first ∧ Spells y second ∧
        x.isFinite = true ∧ y.isFinite = true := by
  rw [← pair?_eq_some_iff, readPair]
  cases pair? text.toList <;> simp

/-- What is no pair is refused with its text. -/
theorem readPair_eq_error {text : String} (h : ∀ x y, readPair text ≠ .ok (x, y)) :
    readPair text = .error (.malformed (.notPair text)) := by
  rw [readPair] at h ⊢
  cases hpair : pair? text.toList with
  | none => rfl
  | some p =>
    rw [hpair] at h
    exact absurd rfl (h p.1 p.2)

/-- What is read as a pair has one comma and matching brackets. -/
theorem separate_of_readPair {text : String} {x y : Float} (h : readPair text = .ok (x, y)) :
    text.toList.count ',' = 1 ∧ Token.Matched (brackets text.toList) := by
  obtain ⟨first, second, htext, hx, hy, -⟩ := readPair_eq_ok_iff.1 h
  obtain ⟨hfirst, hmatched⟩ := hx.separate
  obtain ⟨hsecond, hmatched'⟩ := hy.separate
  have hcomma : brackets (',' :: second) = brackets second := rfl
  constructor
  · rw [htext, List.count_append, List.count_cons_self, List.count_eq_zero.2 hfirst,
      List.count_eq_zero.2 hsecond]
  · rw [htext, brackets_append, hcomma, Token.Matched, hmatched.depthAfter_append]
    exact hmatched'

/-- Around the comma of a pair stand the numbers that are read. -/
theorem eq_or_eq_of_spells {text : String} {x y : Float} (h : readPair text = .ok (x, y))
    {first second : List Char} (htext : text.toList = first ++ ',' :: second) {v : Float}
    (hv : Spells v first ∨ Spells v second) : v = x ∨ v = y := by
  have hcommas := (separate_of_readPair h).1
  rw [htext, List.count_append, List.count_cons_self] at hcommas
  have hfirst : ',' ∉ first := List.count_eq_zero.1 (by omega)
  obtain ⟨first', second', htext', hx, hy, -⟩ := readPair_eq_ok_iff.1 h
  rw [htext] at htext'
  -- Both cuts are at the only comma.
  obtain ⟨htake, hdrop⟩ := cut_at_comma hfirst second
  obtain ⟨htake', hdrop'⟩ := cut_at_comma hx.separate.1 second'
  rw [← htext'] at htake' hdrop'
  obtain rfl := htake.symm.trans htake'
  obtain ⟨-, rfl⟩ := List.cons.inj (hdrop.symm.trans hdrop')
  have hsame {v w : Float} {cs : List Char} (hv : Spells v cs) (hw : Spells w cs) : v = w :=
    Option.some.inj ((operand?_eq_some_iff.2 hv).symm.trans (operand?_eq_some_iff.2 hw))
  exact hv.imp (fun hv => hsame hv hx) fun hv => hsame hv hy

/-- The text evaluated of a number, with blanks around it and just inside its brackets. -/
def EntryText (v : Float) (text : List Char) : Prop :=
  if v < 0 then
    ∃ inside, Padded (Number.chars v) inside ∧ Padded ('(' :: (inside ++ [')'])) text
  else Padded (Number.chars v) text

/-- The text evaluated of a number may have no blanks. -/
theorem entryText_source (v : Float) : EntryText v (Entry.number v).source.toList := by
  rw [EntryText, Entry.source]
  split
  · refine ⟨Number.chars v, .refl _, ?_⟩
    simpa [Number.text] using Padded.refl _
  · simpa [Number.text] using Padded.refl _

/-- The text evaluated of a finite number is a form of it. -/
theorem spells_of_entryText {v : Float} (hv : v.isFinite = true) {text : List Char}
    (h : EntryText v text) : Spells v text := by
  refine ⟨_, Number.ofChars?_chars hv, ?_⟩
  rw [EntryText] at h
  split at h
  · exact .inr h
  · exact .inl h

/--
Two finite numbers entered around a comma on an empty line are read as that pair, and they still are
with blanks around them and just inside their brackets. No text is read as a pair that has not
exactly one comma, or whose brackets do not match, or that has a number beside a comma that is not
finite.
-/
theorem readPair_reads_entered_numbers :
    (∀ (s : Session) (x y : Float), s.line.toList = [] → x.isFinite = true → y.isFinite = true →
      readPair (((s.enter (.number x)).enter .comma).enter (.number y)).line.source = .ok (x, y)) ∧
    (∀ (x y : Float) (first second : List Char), x.isFinite = true → y.isFinite = true →
      EntryText x first → EntryText y second →
        readPair (String.ofList (first ++ ',' :: second)) = .ok (x, y)) ∧
    ∀ text : String,
      (text.toList.count ',' ≠ 1 ∨ ¬Token.Matched (brackets text.toList) ∨
        ∃ first second v, text.toList = first ++ ',' :: second ∧
          (Spells v first ∨ Spells v second) ∧ v.isFinite = false) →
        readPair text = .error (.malformed (.notPair text)) := by
  have hspaced (x y : Float) (first second : List Char) (hx : x.isFinite = true)
      (hy : y.isFinite = true) (hfirst : EntryText x first) (hsecond : EntryText y second) :
      readPair (String.ofList (first ++ ',' :: second)) = .ok (x, y) :=
    readPair_eq_ok_iff.2 ⟨first, second, String.toList_ofList, spells_of_entryText hx hfirst,
      spells_of_entryText hy hsecond, hx, hy⟩
  refine ⟨fun s x y hempty hx hy => ?_, hspaced, fun text h => ?_⟩
  · have hsource : (((s.enter (.number x)).enter .comma).enter (.number y)).line.source =
        String.ofList
          ((Entry.number x).source.toList ++ ',' :: (Entry.number y).source.toList) := by
      have hline : (((s.enter (.number x)).enter .comma).enter (.number y)).line.toList =
          [.number x, .comma, .number y] := by
        show s.line.toList ++ [Entry.number x] ++ [.comma] ++ [.number y] = _
        rw [hempty]
        rfl
      rw [Line.source, hline, ← String.toList_inj, String.toList_ofList]
      simp only [Entry.toList_sourceAll_cons]
      simp [Entry.sourceAll, Entry.source]
    rw [hsource]
    exact hspaced x y _ _ hx hy (entryText_source x) (entryText_source y)
  · refine readPair_eq_error fun x y hread => ?_
    obtain ⟨hcommas, hmatched⟩ := separate_of_readPair hread
    rcases h with hcount | hunmatched | ⟨first, second, v, htext, hv, hfinite⟩
    · exact hcount hcommas
    · exact hunmatched hmatched
    · obtain ⟨-, -, -, -, -, hx, hy⟩ := readPair_eq_ok_iff.1 hread
      rcases eq_or_eq_of_spells hread htext hv with rfl | rfl
      · simp [hx] at hfinite
      · simp [hy] at hfinite

/-- A number below zero with blanks on either side of its brackets, an open bracket, and a number
too large to be finite. -/
theorem readPair_reads_entered_numbers_negative_index :
    let s : Session := { line := .failed (.numeric .divisionByZero) }
    let first := [' ', '(', '\t', '-', '3', ' ', ')']
    let second := ['0', '.', '2', '5', '\n']
    let infinite := ['1', 'e', '9', '9', '9']
    s.line.toList = [] ∧ (-3 : Float).isFinite = true ∧ (0.25 : Float).isFinite = true ∧
      readPair (((s.enter (.number (-3))).enter .comma).enter (.number 0.25)).line.source =
        .ok (-3, 0.25) ∧
      EntryText (-3) first ∧ EntryText 0.25 second ∧
      readPair (String.ofList (first ++ ',' :: second)) = .ok (-3, 0.25) ∧
      ¬Token.Matched (brackets "(3,4".toList) ∧
      readPair "(3,4" = .error (.malformed (.notPair "(3,4")) ∧
      "2,1e999".toList = ['2'] ++ ',' :: infinite ∧ Spells (1 / 0) infinite ∧
      (1 / 0 : Float).isFinite = false ∧
      readPair "2,1e999" = .error (.malformed (.notPair "2,1e999")) := by
  intro s first second infinite
  obtain ⟨hentered, hspaced, hrefused⟩ := readPair_reads_entered_numbers
  have hx : (-3 : Float).isFinite = true := by decide +kernel
  have hy : (0.25 : Float).isFinite = true := by decide +kernel
  have hfirst : EntryText (-3) first := by
    have hchars : Number.chars (-3) = ['-', '3'] := by decide +kernel
    have htab : isBlank '\t' = true := by decide
    have hspace : isBlank ' ' = true := by decide
    rw [EntryText, if_pos (by decide +kernel), hchars]
    exact ⟨['\t', '-', '3', ' '], ⟨['\t'], [' '], by simp [htab], by simp [hspace], rfl⟩,
      ⟨[' '], [], by simp [hspace], by simp, rfl⟩⟩
  have hsecond : EntryText 0.25 second := by
    have hchars : Number.chars 0.25 = ['0', '.', '2', '5'] := by decide +kernel
    have hline : isBlank '\n' = true := by decide
    rw [EntryText, if_neg (by decide +kernel), hchars]
    exact ⟨[], ['\n'], by simp, by simp [hline], rfl⟩
  have hunmatched : ¬Token.Matched (brackets "(3,4".toList) := by decide +kernel
  have htext : "2,1e999".toList = ['2'] ++ ',' :: infinite := by decide +kernel
  have hspells : Spells (1 / 0) infinite := ⟨_, by decide +kernel, .inl (.refl _)⟩
  have hinfinite : (1 / 0 : Float).isFinite = false := by decide +kernel
  exact ⟨rfl, hx, hy, hentered s _ _ rfl hx hy, hfirst, hsecond,
    hspaced _ _ _ _ hx hy hfirst hsecond, hunmatched, hrefused _ (.inr (.inl hunmatched)), htext,
    hspells, hinfinite,
    hrefused _ (.inr (.inr ⟨_, _, _, htext, .inr hspells, hinfinite⟩))⟩

end Root

end SciCalc
