import SciCalc.Proofs.Evaluating
import SciCalc.Proofs.Separating

/-!
# Blanks between tokens

A blank cuts a text in two, and the tokens of the whole are those of the parts. So blanks at the
ends of a text are free, and so are blanks between two tokens. Inside a word, a numeral or a double
star they are not: what is cut there is two tokens, and the text is never read as it was.
-/

set_option autoImplicit false

namespace SciCalc

namespace Token

/-! ## Cutting a text -/

/-- Whether the text behind a cut goes on with the token that the text before it ends with. Only
words, numerals and stars go on. -/
def splitsToken (before after : String) : Bool :=
  after.toList.head?.any fun c => ((heldAfter .nothing before.toList).extend? c).isSome

/-- A text is read in two parts exactly if the cut splits no token. -/
theorem lex_append_iff (before after : String) :
    lex (before ++ after) = lex before ++ lex after ↔ splitsToken before after = false := by
  rw [lex, lex, lex, String.toList_append, lexFrom_append_eq_iff, splitsToken]
  cases after.toList with
  | nil => simp [lexFrom, Held.tokens]
  | cons c cs =>
    cases hextend : (heldAfter .nothing before.toList).extend? c with
    | none => simpa [hextend] using lexFrom_of_extend?_eq_none cs hextend
    | some grown => simpa [hextend] using lexFrom_ne_of_extend? hextend cs

/-- A text that is not empty has a first character. -/
theorem exists_toList_eq_cons {s : String} (h : s ≠ "") : ∃ c cs, s.toList = c :: cs :=
  List.exists_cons_of_ne_nil (mt String.toList_eq_nil_iff.1 h)

/-- A text of blanks, at least one. -/
def IsGap (s : String) : Prop := s ≠ "" ∧ ∀ c ∈ s.toList, Text.isBlank c = true

/-- A single blank is a gap. -/
theorem isGap_singleton {w : Char} (h : Text.isBlank w = true) : IsGap (String.singleton w) := by
  refine ⟨fun hempty => ?_, by simpa using h⟩
  have := congrArg String.toList hempty
  simp at this

/-- A gap cuts a text in two. -/
theorem lex_gap_between {gap : String} (h : IsGap gap) (before after : String) :
    lex (before ++ gap ++ after) = lex before ++ lex after := by
  obtain ⟨w, blanks, hchars⟩ := exists_toList_eq_cons h.1
  have hblank := h.2
  rw [hchars, List.forall_mem_cons] at hblank
  rw [lex, String.toList_append, String.toList_append, hchars, List.append_assoc, List.cons_append,
    lexFrom_append_cons (cuts_of_isBlank hblank.1), lexFrom_nothing_blank hblank.1,
    lexFrom_blanks_append hblank.2, lex, lex]

/-- A gap leaves the tokens as they are exactly if it splits none. -/
theorem lex_gap_between_eq_iff {gap : String} (h : IsGap gap) (before after : String) :
    lex (before ++ gap ++ after) = lex (before ++ after) ↔ splitsToken before after = false := by
  rw [lex_gap_between h, ← lex_append_iff, eq_comm]

/-- Blanks at the ends of a text leave no tokens. -/
theorem lex_blanks_around {first last : String} (hfirst : ∀ c ∈ first.toList, Text.isBlank c = true)
    (hlast : ∀ c ∈ last.toList, Text.isBlank c = true) (s : String) :
    lex (first ++ s ++ last) = lex s := by
  rw [lex, String.toList_append, String.toList_append, lexFrom_append_blanks hlast,
    lexFrom_blanks_append hfirst, lex]

/-! ## Inside a numeral or a word -/

/-- The text of one numeral. -/
def IsNumeral (s : String) : Prop := s ≠ "" ∧ ∀ c ∈ s.toList, inNumeral c = true

/-- The text of one word. -/
def IsWord (s : String) : Prop :=
  (∃ c ∈ s.toList.head?, startsWord c = true) ∧ ∀ c ∈ s.toList, continuesWord c = true

/-- The parts of a numeral are numerals. -/
theorem IsNumeral.of_append {x y : String} (h : IsNumeral (x ++ y)) (hx : x ≠ "") (hy : y ≠ "") :
    IsNumeral x ∧ IsNumeral y := by
  have hchars := h.2
  rw [String.toList_append, List.forall_mem_append] at hchars
  exact ⟨⟨hx, hchars.1⟩, hy, hchars.2⟩

/-- The first part of a word is a word. -/
theorem IsWord.of_append {x y : String} (h : IsWord (x ++ y)) (hx : x ≠ "") : IsWord x := by
  obtain ⟨c, cs, hcs⟩ := exists_toList_eq_cons hx
  obtain ⟨hfirst, hchars⟩ := h
  rw [String.toList_append, hcs] at hfirst hchars
  exact ⟨by rwa [hcs], fun d hd => hchars d (List.mem_append_left _ (hcs ▸ hd))⟩

/-- A numeral is one token, and what follows is read on its own. -/
theorem lex_numeral_append {n after : String} (h : IsNumeral n)
    (hafter : ∀ c ∈ after.toList.head?, inNumeral c = false) :
    lex (n ++ after) = ofNumeral n.toList :: lex after := by
  rw [lex, String.toList_append]
  exact lexFrom_nothing_numeral_append (mt String.toList_eq_nil_iff.1 h.1) h.2 hafter

/-- A numeral is one token. -/
theorem lex_numeral {n : String} (h : IsNumeral n) : lex n = [ofNumeral n.toList] := by
  have hread := @lex_numeral_append n "" h (by simp)
  rwa [String.append_empty] at hread

/-- A character that starts a word is held as one. -/
theorem start_of_startsWord {c : Char} (h : startsWord c = true) : start c = ([], .word [c]) := by
  have hparts : Text.isBlank c = false ∧ ofSign? c = none ∧ c ≠ '*' := by
    rcases Bool.or_eq_true_iff.1 h with hlower | hline
    · have all : ∀ k : Fin 26, Text.isBlank (Char.ofNat (97 + k)) = false ∧
          ofSign? (Char.ofNat (97 + k)) = none ∧ Char.ofNat (97 + k) ≠ '*' := by decide
      have hrange := Bool.and_eq_true_iff.1 hlower
      have hfirst : 97 ≤ c.toNat := UInt32.le_iff_toNat_le.1 (of_decide_eq_true hrange.1)
      have hlast : c.toNat ≤ 122 := UInt32.le_iff_toNat_le.1 (of_decide_eq_true hrange.2)
      have hletter := all ⟨c.toNat - 97, by omega⟩
      rwa [Nat.add_sub_cancel' hfirst, Char.ofNat_toNat] at hletter
    · obtain rfl : c = '_' := by simpa using hline
      decide
  obtain ⟨hblank, hsign, hstar⟩ := hparts
  simp [start, hblank, hsign, hstar, h]

/-- A word is one token, and what follows is read on its own. -/
theorem lex_word_append {word after : String} (h : IsWord word)
    (hafter : ∀ c ∈ after.toList.head?, continuesWord c = false) :
    lex (word ++ after) = ofWord word.toList :: lex after := by
  obtain ⟨⟨c, hhead, hc⟩, hchars⟩ := h
  obtain ⟨cs, hcs⟩ := List.head?_eq_some_iff.1 hhead
  rw [hcs, List.forall_mem_cons] at hchars
  have hextend : Held.extend? .nothing c = none := rfl
  rw [lex, String.toList_append, hcs, List.cons_append, lexFrom, hextend]
  show Held.tokens .nothing ++ (start c).1 ++ lexFrom (start c).2 (cs ++ after.toList) = _
  rw [start_of_startsWord hc]
  exact lexFrom_word_append hchars.2 hafter [c]

/-- A word is one token. -/
theorem lex_word {word : String} (h : IsWord word) : lex word = [ofWord word.toList] := by
  have hread := @lex_word_append word "" h (by simp)
  rwa [String.append_empty] at hread

/-- What is held leaves a token. -/
theorem lexFrom_ne_nil {held : Held} (h : held ≠ .nothing) (cs : List Char) :
    lexFrom held cs ≠ [] := by
  have htokens {held : Held} (h : held ≠ .nothing) : held.tokens ≠ [] := by
    cases held with
    | nothing => exact absurd rfl h
    | _ => exact List.cons_ne_nil _ _
  induction cs generalizing held with
  | nil => exact htokens h
  | cons c cs ih =>
    rw [lexFrom]
    cases hextend : held.extend? c with
    | none => simp [htokens h]
    | some grown =>
      refine ih ?_
      rintro rfl
      cases held <;> simp [Held.extend?] at hextend

/-- Only blanks leave no tokens. -/
theorem lexFrom_nothing_ne_nil {c : Char} (h : Text.isBlank c = false) (cs : List Char) :
    lexFrom .nothing (c :: cs) ≠ [] := by
  have hstart : (start c).1 ≠ [] ∨ (start c).2 ≠ .nothing := by
    rw [start, h, if_neg Bool.false_ne_true]
    cases hsign : ofSign? c with
    | some ts =>
      refine .inl ?_
      rintro rfl
      unfold ofSign? at hsign
      split at hsign <;> cases hsign
    | none =>
      dsimp only
      split_ifs <;> simp
  have hextend : Held.extend? .nothing c = none := rfl
  rw [lexFrom, hextend]
  show Held.tokens .nothing ++ (start c).1 ++ lexFrom (start c).2 cs ≠ []
  rcases hstart with hstart | hstart
  · simp [hstart]
  · simp [lexFrom_ne_nil hstart]

/-- Behind a cut inside a word, something is left to read. -/
theorem lex_append_ne_nil {y : String} (hne : y ≠ "")
    (hy : ∀ c ∈ y.toList, continuesWord c = true) (after : String) : lex (y ++ after) ≠ [] := by
  obtain ⟨c, cs, hcs⟩ := exists_toList_eq_cons hne
  have hc : continuesWord c = true := hy c (hcs ▸ List.mem_cons_self)
  have hblank : Text.isBlank c = false := by
    refine Bool.eq_false_iff.2 fun hblank => ?_
    have hextend : Held.extend? (.word []) c = none := cuts_of_isBlank hblank _
    simp [Held.extend?, hc] at hextend
  rw [lex, String.toList_append, hcs]
  exact lexFrom_nothing_ne_nil hblank _

/-- What stands in front is read on its own, if a text goes on with nothing of it. -/
theorem lex_append_of_start {before x : String} (hx : x ≠ "") (h : splitsToken before x = false)
    (rest : String) : lex (before ++ (x ++ rest)) = lex before ++ lex (x ++ rest) := by
  refine (lex_append_iff before (x ++ rest)).2 ?_
  obtain ⟨c, cs, hcs⟩ := exists_toList_eq_cons hx
  rw [splitsToken, hcs] at h
  rwa [splitsToken, String.toList_append, hcs]

/-- A gap behind the first part of a text that is read on its own. -/
theorem lex_gap_inside {gap before x : String} (hgap : IsGap gap) (hx : x ≠ "")
    (hstart : splitsToken before x = false) (y after : String) :
    lex (before ++ (x ++ gap ++ y) ++ after) = lex before ++ lex x ++ lex (y ++ after) := by
  have hcut : before ++ (x ++ gap ++ y) ++ after = before ++ x ++ gap ++ (y ++ after) := by
    simp only [String.append_assoc]
  have hfirst := lex_append_of_start hx hstart ""
  rw [String.append_empty] at hfirst
  rw [hcut, lex_gap_between hgap, hfirst]

/-- A gap inside a numeral makes two of it. -/
theorem lex_gap_inside_numeral {gap before x y after : String} (hgap : IsGap gap) (hx : x ≠ "")
    (hy : y ≠ "") (hstart : splitsToken before x = false) (hnumeral : IsNumeral (x ++ y))
    (hafter : ∀ c ∈ after.toList.head?, inNumeral c = false) :
    lex (before ++ (x ++ y) ++ after) = lex before ++ ofNumeral (x ++ y).toList :: lex after ∧
      lex (before ++ (x ++ gap ++ y) ++ after) =
        lex before ++ ofNumeral x.toList :: ofNumeral y.toList :: lex after := by
  obtain ⟨hfirst, hsecond⟩ := hnumeral.of_append hx hy
  constructor
  · rw [String.append_assoc, String.append_assoc, lex_append_of_start hx hstart,
      ← String.append_assoc, lex_numeral_append hnumeral hafter]
  · rw [lex_gap_inside hgap hx hstart, lex_numeral hfirst, lex_numeral_append hsecond hafter,
      List.append_assoc, List.singleton_append]

/-- A word and what follows are never read as the parts of the word are. -/
theorem ofWord_cons_ne {x y after : String} (hy : y ≠ "")
    (hafter : ∀ c ∈ after.toList.head?, continuesWord c = false) :
    ofWord x.toList :: lex (y ++ after) ≠ ofWord (x ++ y).toList :: lex after := by
  intro heq
  obtain ⟨hname, hfollow⟩ := List.cons.inj heq
  rw [String.toList_append] at hname
  have hten := eq_ten_of_ofWord_append (mt String.toList_eq_nil_iff.1 hy) hname.symm
  rw [lex, lex, String.toList_append, hten] at hfollow
  exact lexFrom_ten_append_ne hafter hfollow

/-- A gap inside a word ends the word there. -/
theorem lex_gap_inside_word {gap before x y after : String} (hgap : IsGap gap) (hx : x ≠ "")
    (hy : y ≠ "") (hstart : splitsToken before x = false) (hword : IsWord (x ++ y))
    (hafter : ∀ c ∈ after.toList.head?, continuesWord c = false) :
    lex (before ++ (x ++ y) ++ after) = lex before ++ ofWord (x ++ y).toList :: lex after ∧
      lex (before ++ (x ++ gap ++ y) ++ after) =
        lex before ++ ofWord x.toList :: lex (y ++ after) ∧
      lex (y ++ after) ≠ [] ∧
      ofWord x.toList :: lex (y ++ after) ≠ ofWord (x ++ y).toList :: lex after := by
  refine ⟨?_, ?_, ?_, ofWord_cons_ne hy hafter⟩
  · rw [String.append_assoc, String.append_assoc, lex_append_of_start hx hstart,
      ← String.append_assoc, lex_word_append hword hafter]
  · rw [lex_gap_inside hgap hx hstart, lex_word (hword.of_append hx), List.append_assoc,
      List.singleton_append]
  · have hchars := hword.2
    rw [String.toList_append, List.forall_mem_append] at hchars
    exact lex_append_ne_nil hy hchars.2 after

/-! ## Blanks in a text -/

/--
A blank anywhere cuts a text in two, and the tokens of the whole are those of the parts. So blanks
at the ends do not matter, neither to the tokens nor to the value or the fault. A gap leaves the
tokens as they are exactly if it splits none, and then it leaves the value or the fault too. Inside
a numeral it makes two of it, and inside a word it ends the word and leaves the rest to be read on
its own, which never are the tokens of the whole.
-/
theorem gaps_separate_tokens :
    (∀ (w : Char), Text.isBlank w = true → ∀ before after : String,
      lex (before ++ String.singleton w ++ after) = lex before ++ lex after) ∧
    (∀ first s last : String, (∀ c ∈ first.toList, Text.isBlank c = true) →
      (∀ c ∈ last.toList, Text.isBlank c = true) → lex (first ++ s ++ last) = lex s) ∧
    (∀ (s : String) (context : Context), evaluate (Text.trim s) context = evaluate s context) ∧
    (∀ gap before after : String, IsGap gap →
      (lex (before ++ gap ++ after) = lex (before ++ after) ↔ splitsToken before after = false) ∧
      (splitsToken before after = false → ∀ context : Context,
        evaluate (before ++ gap ++ after) context = evaluate (before ++ after) context)) ∧
    (∀ gap before x y after : String, IsGap gap → x ≠ "" → y ≠ "" → splitsToken before x = false →
      (IsNumeral (x ++ y) → (∀ c ∈ after.toList.head?, inNumeral c = false) →
        lex (before ++ (x ++ y) ++ after) =
          lex before ++ ofNumeral (x ++ y).toList :: lex after ∧
        lex (before ++ (x ++ gap ++ y) ++ after) =
          lex before ++ ofNumeral x.toList :: ofNumeral y.toList :: lex after) ∧
      (IsWord (x ++ y) → (∀ c ∈ after.toList.head?, continuesWord c = false) →
        lex (before ++ (x ++ y) ++ after) = lex before ++ ofWord (x ++ y).toList :: lex after ∧
        lex (before ++ (x ++ gap ++ y) ++ after) =
          lex before ++ ofWord x.toList :: lex (y ++ after) ∧
        lex (y ++ after) ≠ [] ∧
        ofWord x.toList :: lex (y ++ after) ≠ ofWord (x ++ y).toList :: lex after)) := by
  refine ⟨fun w hw => lex_gap_between (isGap_singleton hw),
    fun first s last hfirst hlast => lex_blanks_around hfirst hlast s,
    fun s => evaluate_of_lex_eq (lex_trim s), fun gap before after hgap => ?_,
    fun gap before x y after hgap hx hy hstart => ?_⟩
  · have hiff := lex_gap_between_eq_iff hgap before after
    exact ⟨hiff, fun hsplits => evaluate_of_lex_eq (hiff.2 hsplits)⟩
  · exact ⟨lex_gap_inside_numeral hgap hx hy hstart, lex_gap_inside_word hgap hx hy hstart⟩

/-- A blank around a sign is free; inside `12` it makes two numbers, and inside `log10.5`, which is
the logarithm before a half, it leaves the logarithm before ten and a half. -/
theorem gaps_separate_tokens_base_of_logarithm :
    lex ("2" ++ " " ++ "+3") = lex ("2" ++ "+3") ∧
    lex ("" ++ ("1" ++ " " ++ "2") ++ "") =
      lex "" ++ ofNumeral "1".toList :: ofNumeral "2".toList :: lex "" ∧
    lex ("" ++ ("log" ++ " " ++ "10") ++ ".5") =
      lex "" ++ ofWord "log".toList :: lex ("10" ++ ".5") ∧
    ofWord "log".toList :: lex ("10" ++ ".5") ≠ ofWord ("log" ++ "10").toList :: lex ".5" := by
  have hgap : IsGap " " := ⟨by decide, by
    have hblank : Text.isBlank ' ' = true := by decide
    simp [hblank]⟩
  have hnumeral : IsNumeral ("1" ++ "2") := ⟨by decide, by
    have hdigits : inNumeral '1' = true ∧ inNumeral '2' = true := by decide
    simp [hdigits]⟩
  have hword : IsWord ("log" ++ "10") := by
    have hstarts : startsWord 'l' = true := by decide
    have hletters : continuesWord 'l' = true ∧ continuesWord 'o' = true ∧
      continuesWord 'g' = true := by decide
    have hdigits : continuesWord '1' = true ∧ continuesWord '0' = true := by decide
    exact ⟨by simp [hstarts], by simp [hletters, hdigits]⟩
  have hpoint : continuesWord '.' = false := by decide
  obtain ⟨-, -, -, houtside, hinside⟩ := gaps_separate_tokens
  refine ⟨(houtside " " "2" "+3" hgap).1.2 (by decide), ?_, ?_⟩
  · exact ((hinside " " "" "1" "2" "" hgap (by decide) (by decide) rfl).1 hnumeral (by simp)).2
  · obtain ⟨-, hlog, -, hne⟩ := (hinside " " "" "log" "10" ".5" hgap (by decide) (by decide) rfl).2
      hword (by simp [hpoint])
    exact ⟨hlog, hne⟩

end Token

end SciCalc
