import SciCalc.Proofs.Evaluating
import SciCalc.Proofs.Spelling
import SciCalc.Proofs.Unwinding
import SciCalc.Session

/-!
# Squaring a line

The square of a line is taken of its text: the text is put in brackets and squared. Whether that
squares the whole line depends on the brackets of the line. If they match, the tree of the new text
is the square of the tree of the line. If some stay open, the bracket put behind the line closes the
last of them instead of the one put in front, so what is squared is the operand that begins there;
that is the whole line only if nothing but brackets and plus signs stands before. If the line closes
a bracket that it has not opened, it has no value, but the bracket in front gives its square one if
it is the only one missing, others stay open and the line is an expression behind it.
-/

set_option autoImplicit false

namespace SciCalc

open Token (depthAfter Matched Bare enclosed squared squaredText prepare writeOut lex)

/-! ## The trees -/

/-- The second tokens have a tree exactly if the first have one, and it is the square of that. -/
def SquareOf (line square : List Token) : Prop :=
  ∀ e, Expr.ofInfix square = .ok e ↔
    ∃ e', Expr.ofInfix line = .ok e' ∧ e = .binary .raise e' (.number 2)

/-- The listing of a square. -/
theorem listing_square (e : Expr) :
    (Expr.binary .raise e (.number 2)).listing = e.listing ++ [.number 2, .operator .raise] := by
  simp [Expr.listing]

/-- Squares are told by their postfix forms. -/
theorem squareOf_of_ofInfix {line square : List Token}
    (h : ∀ listing, Postfix.ofInfix square = .ok listing ↔
      ∃ listing', Postfix.ofInfix line = .ok listing' ∧
        listing = listing' ++ [.number 2, .operator .raise]) : SquareOf line square := by
  intro e
  constructor
  · intro he
    obtain ⟨hsquare, hfits⟩ := Expr.ofInfix_eq_ok_iff_listing.1 he
    obtain ⟨listing', hline, hlisting⟩ := (h _).1 hsquare
    obtain ⟨e', he', rfl⟩ := Postfix.derives_of_ofInfix hline
    have hfits' : (Expr.binary .raise e' (.number 2)).Fits := ⟨he'.fits_of_plain, trivial⟩
    rw [← listing_square] at hlisting
    exact ⟨e', Expr.ofInfix_eq_ok_iff.2 he', Expr.eq_of_listing_eq hfits hfits' hlisting⟩
  · rintro ⟨e', he', rfl⟩
    obtain ⟨hline, hfits⟩ := Expr.ofInfix_eq_ok_iff_listing.1 he'
    refine Expr.ofInfix_eq_ok_iff_listing.2 ⟨?_, hfits, trivial⟩
    exact (h _).2 ⟨_, hline, listing_square e'⟩

/-- Matching tokens are squared as a whole. -/
theorem squareOf_squared {ts : List Token} (hts : Matched ts) : SquareOf ts (squared ts) := by
  refine squareOf_of_ofInfix fun listing => ?_
  have hsplit : squared ts = enclosed none ts ++ [.operator .raise, .number 2] := by
    simp [squared, enclosed]
  have hend (listing' : List Token) :
      (Postfix.readAll (.filled (listing'.reverse ++ []) [])
          [.operator .raise, .number 2]).bind Postfix.State.finish =
        .ok (listing' ++ [.number 2, .operator .raise]) := by
    have hfinish := @Postfix.State.finish_filled (.number 2 :: (listing'.reverse ++ []))
      [.operator .raise] (by simp [Postfix.Pending.isBracket])
    refine hfinish.trans ?_
    simp [Postfix.released, Postfix.Pending.token]
  rw [Postfix.ofInfix_eq_ok_iff_bind, hsplit, Postfix.finish_readAll_append,
    Postfix.bind_eq_ok_iff]
  constructor
  · rintro ⟨s, hread, hs⟩
    obtain ⟨listing', hline, rfl⟩ := (Postfix.readAll_bracketed_eq_ok_iff hts [] [] s).1 hread
    rw [hend] at hs
    exact ⟨listing', hline, (Except.ok.inj hs).symm⟩
  · rintro ⟨listing', hline, rfl⟩
    have hread := (Postfix.readAll_bracketed_eq_ok_iff hts [] [] _).2 ⟨listing', hline, rfl⟩
    exact ⟨_, hread, hend listing'⟩

/--
Where brackets stay open, the line is squared as a whole exactly if it has no tree anyway or nothing
but brackets and plus signs stands before the operand that the last of them begins.
-/
theorem squareOf_open_iff {before ts : List Token} {callee : Option MathFunction} {n : Nat}
    (hts : Matched ts) (hcallee : callee = none → ∀ f, before.getLast? ≠ some (.function f))
    (hdepth : depthAfter 0 (before ++ enclosed callee ts) = some n) :
    SquareOf (before ++ enclosed callee ts ++ List.replicate n .closing)
        (.opening :: (before ++ enclosed callee ts ++ [.operator .raise, .number 2] ++
          List.replicate (n + 1) .closing)) ↔
      (∀ e, Expr.ofInfix (before ++ enclosed callee ts ++ List.replicate n .closing) ≠
        .ok e) ∨ Bare before := by
  have hfilled (s : Postfix.State) :=
    @Postfix.exists_filled_of_readAll_append_enclosed _ _ _ hts hcallee s
  have hline := Postfix.ofInfix_append_closings_eq_ok_iff hdepth hfilled
  have hsquare := Postfix.ofInfix_square_closings_eq_ok_iff hdepth hfilled
  constructor
  · intro hwhole
    by_cases htree : ∃ e, Expr.ofInfix
        (before ++ enclosed callee ts ++ List.replicate n .closing) = .ok e
    · refine .inr ?_
      obtain ⟨e, he⟩ := htree
      obtain ⟨output, pending, hread, -, hlisting⟩ :=
        (hline _).1 (Expr.ofInfix_eq_ok_iff_listing.1 he).1
      obtain ⟨output', pending', hread', -, hlisting'⟩ :=
        (hsquare _).1 (Expr.ofInfix_eq_ok_iff_listing.1 ((hwhole _).2 ⟨e, he, rfl⟩)).1
      rw [hread] at hread'
      obtain ⟨rfl, rfl, -⟩ := Postfix.State.mk.inj (Except.ok.inj hread')
      refine (Postfix.plainBrackets_iff_bare hts hcallee hread).1
        ((Postfix.unwound_eq_nil_iff pending).1 ?_)
      -- The square is listed behind all that the stack unwinds to, and also before it.
      rw [listing_square, hlisting, List.append_assoc, List.append_assoc] at hlisting'
      have hcommute := List.append_cancel_left hlisting'
      cases hunwound : Postfix.unwound pending with
      | nil => rfl
      | cons t rest =>
        rw [hunwound] at hcommute
        have ht : t = .number 2 := (List.cons.inj hcommute).1
        have hmem : t ∈ Postfix.unwound pending := by simp [hunwound]
        rw [ht] at hmem
        exact absurd hmem (Postfix.number_not_mem_unwound 2 pending)
    · exact .inl fun e he => htree ⟨e, he⟩
  · rintro (hnone | hb)
    · intro e
      constructor
      · intro he
        obtain ⟨output, pending, hread, hsat, -⟩ :=
          (hsquare _).1 (Expr.ofInfix_eq_ok_iff_listing.1 he).1
        have hlisting := (hline _).2 ⟨output, pending, hread, hsat, rfl⟩
        obtain ⟨e', he', -⟩ := Postfix.derives_of_ofInfix hlisting
        exact absurd (Expr.ofInfix_eq_ok_iff.2 he') (hnone e')
      · rintro ⟨e', he', -⟩
        exact absurd he' (hnone e')
    · refine squareOf_of_ofInfix fun listing => ?_
      have hnil (output : List Token) (pending : List Postfix.Pending)
          (hread : Postfix.readAll {} (before ++ enclosed callee ts) =
            .ok (.filled output pending)) : Postfix.unwound pending = [] :=
        (Postfix.unwound_eq_nil_iff pending).2
          ((Postfix.plainBrackets_iff_bare hts hcallee hread).2 hb)
      rw [hsquare]
      constructor
      · rintro ⟨output, pending, hread, hsat, rfl⟩
        refine ⟨_, (hline _).2 ⟨output, pending, hread, hsat, rfl⟩, ?_⟩
        simp [hnil output pending hread]
      · rintro ⟨listing', hl, rfl⟩
        obtain ⟨output, pending, hread, hsat, rfl⟩ := (hline _).1 hl
        refine ⟨output, pending, hread, hsat, ?_⟩
        simp [hnil output pending hread]

/-! ## The prepared tokens -/

namespace Token

/--
The operand that the last open bracket begins is all of the tokens but for brackets and plus signs.
-/
def Unwrapped (ts : List Token) : Prop :=
  ∃ before callee after, ts = before ++ (Option.map function callee).toList ++ opening :: after ∧
    Bare before ∧ Matched after

/-- Shorthand is written out inside the brackets of a square. -/
theorem writeOut_squared (ts : List Token) : writeOut (squared ts) = squared (writeOut ts) := by
  have hend : writeOut [closing, operator .raise, number 2] =
      [closing, operator .raise, number 2] := rfl
  rw [squared, writeOut_opening, writeOut_append_cons (.inl rfl), hend, squared]

/-- As many brackets are open behind a square as behind what is squared. -/
theorem depthAfter_squared {ts : List Token} {n : Nat} (h : depthAfter 0 ts = some n) :
    depthAfter 0 (squared ts) = some n := by
  rw [squared, depthAfter, depthAfter_append, depthAfter_add h 1]
  cases n <;> rfl

/-- Matching tokens are prepared inside the brackets of a square. -/
theorem prepare_squared (mode : AngleMode) {ts : List Token} (hts : Matched ts) :
    Matched (prepare mode ts) ∧ prepare mode (squared ts) = squared (prepare mode ts) := by
  have hplain : toPlain ts = writeOut ts := by simpa using toPlain_of_depthAfter hts
  have hsquared : toPlain (squared ts) = squared (writeOut ts) := by
    rw [toPlain_of_depthAfter (depthAfter_squared hts), writeOut_squared]
    simp
  have hmatched : Matched (writeOut ts) := by rw [Matched, depthAfter_writeOut, hts]
  rw [prepare, prepare, hplain, hsquared]
  cases mode with
  | radians => exact ⟨hmatched, rfl⟩
  | degrees =>
    refine ⟨hmatched.convertWithin, ?_⟩
    have hsplit (us : List Token) :
        squared us = enclosed none us ++ [operator .raise, number 2] := by
      simp [squared, enclosed]
    rw [convertAngles, convertAngles, hsplit, hsplit, convertWithin_enclosed none hmatched]
    rfl

/-- The tokens before a bracket end with the function it belongs to, or with no function. -/
theorem exists_callee (ts : List Token) :
    ∃ before callee, ts = before ++ (Option.map function callee).toList ∧
      (callee = none → ∀ f, before.getLast? ≠ some (function f)) := by
  rcases List.eq_nil_or_concat ts with rfl | ⟨us, t, rfl⟩
  · exact ⟨[], none, rfl, by simp⟩
  cases t with
  | function f => exact ⟨us, some f, by simp, by simp⟩
  | _ => exact ⟨_, none, by simp; rfl, by simp⟩

/-- A square and the closing brackets behind it are converted. -/
theorem convertWithin_square_closings (within : List Bool) :
    convertWithin within
        ([operator .raise, number 2] ++ List.replicate within.length closing) =
      [operator .raise, number 2] ++ List.replicate (weight within) closing := by
  rw [List.cons_append, List.singleton_append,
    (convertWithin_cons within (by simp) (by simp) (by simp [NoCallee])).1,
    (convertWithin_cons within (by simp) (by simp) (by simp [NoCallee])).1,
    convertWithin_replicate_closing]
  rfl

/--
Tokens that leave brackets open are prepared up to the bracket that closes the last of them, and so
is their square: the same tokens stand behind its first bracket, and the square follows on them.
-/
theorem exists_prepare_open (mode : AngleMode) {before ts : List Token}
    {callee : Option MathFunction} {n : Nat} (hts : Matched ts)
    (hcallee : callee = none → ∀ f, before.getLast? ≠ some (function f))
    (hdepth : depthAfter 0 (before ++ enclosed callee ts) = some n) :
    ∃ before' ts' m, Matched ts' ∧ (Bare before' ↔ Bare before) ∧
      (callee = none → ∀ f, before'.getLast? ≠ some (function f)) ∧
      depthAfter 0 (before' ++ enclosed callee ts') = some m ∧
      convertAngles mode (before ++ enclosed callee ts ++ List.replicate n closing) =
        before' ++ enclosed callee ts' ++ List.replicate m closing ∧
      convertAngles mode (opening :: (before ++ enclosed callee ts ++
          [operator .raise, number 2] ++ List.replicate (n + 1) closing)) =
        opening :: (before' ++ enclosed callee ts' ++
          [operator .raise, number 2] ++ List.replicate (m + 1) closing) := by
  cases mode with
  | radians => exact ⟨before, ts, n, hts, Iff.rfl, hcallee, hdepth, rfl, rfl⟩
  | degrees =>
    have hopen : depthAfter 0 before = some n := by
      rw [depthAfter_append] at hdepth
      rcases hbefore : depthAfter 0 before with _ | k
      · rw [hbefore] at hdepth
        cases hdepth
      · rw [hbefore] at hdepth
        rwa [← (hts.enclosed callee).depthAfter_eq k]
    obtain ⟨habove, hafter, hlen⟩ := convertWithin_below [] hopen [false]
    rw [List.nil_append] at habove hafter
    refine ⟨convertWithin [] before, inDegrees callee ts, weight (withinAfter [] before),
      hts.inDegrees callee, ⟨bare_of_convertWithin, fun h => by rwa [convertWithin_bare h]⟩,
      fun h f hlast => ?_, ?_, ?_, ?_⟩
    · rcases List.eq_nil_or_concat before with rfl | ⟨us, t, rfl⟩
      · cases hlast
      · rw [List.concat_eq_append, getLast?_convertWithin] at hlast
        exact hcallee h f (by simpa using hlast)
    · have hbefore := depthAfter_convertWithin [] before
      rw [List.length_nil, hopen] at hbefore
      rw [depthAfter_append, show depthAfter 0 _ = _ from hbefore]
      exact ((hts.inDegrees callee).enclosed callee).depthAfter_eq _
    · rw [convertAngles, convertWithin_append_enclosed hts hcallee, ← hlen,
        convertWithin_replicate_closing]
    · -- The bracket in front is the outermost one that is open, and it closes once.
      have hcount : n + 1 = (withinAfter [] before ++ [false]).length := by simp [hlen]
      have hweight : weight (withinAfter [] before ++ [false]) =
          weight (withinAfter [] before) + 1 := weight_append _ _
      have hend := convertWithin_square_closings (withinAfter [] before ++ [false])
      rw [← hcount, hweight] at hend
      rw [List.append_assoc, convertAngles, convertWithin_opening,
        convertWithin_append_enclosed hts hcallee, habove, hafter, hend]
      simp

/-- Bare tokens and a function name are silent. -/
theorem silent_of_bare {before : List Token} (h : Bare before) (callee : Option MathFunction) :
    ∀ t ∈ before ++ (callee.map function).toList, Silent t := by
  intro t ht
  rcases List.mem_append.1 ht with ht | ht
  · rcases h t ht with rfl | rfl
    · exact .inl rfl
    · exact .inr (.inl rfl)
  · cases callee with
    | none => simp at ht
    | some f => exact .inr (.inr ⟨f, by simpa using ht⟩)

/--
Tokens that leave brackets open, cut at an open bracket behind which the tokens match: they are
squared as a whole exactly if they have no tree or only bare tokens are written out before the cut.
-/
theorem squareOf_prepare_iff_bare (mode : AngleMode) {ts before after : List Token}
    {callee : Option MathFunction} {n : Nat} (hafter : Matched after)
    (hwrite : writeOut ts = before ++ (callee.map function).toList ++ opening :: writeOut after)
    (hcallee : callee = none → ∀ f, before.getLast? ≠ some (function f))
    (hdepth : depthAfter 0 ts = some (n + 1)) :
    SquareOf (prepare mode ts) (prepare mode (squared ts)) ↔
      (∀ e, Expr.ofInfix (prepare mode ts) ≠ .ok e) ∨ Bare before := by
  have hmatched : Matched (writeOut after) := by rw [Matched, depthAfter_writeOut, hafter]
  have hclosed : writeOut ts ++ [closing] = before ++ enclosed callee (writeOut after) := by
    simp [hwrite, enclosed]
  have hline : toPlain ts =
      before ++ enclosed callee (writeOut after) ++ List.replicate n closing := by
    rw [toPlain_of_depthAfter hdepth, ← hclosed, List.append_assoc, List.singleton_append]
    rfl
  have hsquare : toPlain (squared ts) =
      opening :: (before ++ enclosed callee (writeOut after) ++ [operator .raise, number 2] ++
        List.replicate (n + 1) closing) := by
    rw [toPlain_of_depthAfter (depthAfter_squared hdepth), writeOut_squared, ← hclosed]
    simp [squared]
  have hopen : depthAfter 0 (before ++ enclosed callee (writeOut after)) = some n := by
    rw [← hclosed, depthAfter_append, depthAfter_writeOut, hdepth]
    rfl
  obtain ⟨before', ts', m, hts', hbare, hcallee', hopen', hline', hsquare'⟩ :=
    exists_prepare_open mode hmatched hcallee hopen
  rw [prepare, prepare, hline, hsquare, hline', hsquare', ← hbare]
  exact squareOf_open_iff hts' hcallee' hopen'

/-- Tokens that leave brackets open are squared as a whole if unwrapped, or if they have no tree. -/
theorem squareOf_prepare_open_iff (mode : AngleMode) {ts : List Token} {n : Nat}
    (hdepth : depthAfter 0 ts = some (n + 1)) :
    SquareOf (prepare mode ts) (prepare mode (squared ts)) ↔
      Unwrapped ts ∨ ∀ e, Expr.ofInfix (prepare mode ts) ≠ .ok e := by
  obtain ⟨before, after, rfl, -, hafter⟩ := exists_last_open hdepth
  obtain ⟨written, hwritten, hwrite⟩ := exists_writeOut_append_opening before
  obtain ⟨before', callee, rfl, hcallee⟩ := exists_callee written
  have hiff := squareOf_prepare_iff_bare mode hafter (hwrite after) hcallee hdepth
  constructor
  · intro h
    rcases hiff.1 h with hnone | hbare
    · exact .inr hnone
    · refine .inl ⟨before', callee, after, ?_, hbare, hafter⟩
      have hsilent : ∀ t ∈ writeOut (before ++ [opening]), Silent t := by
        rw [hwritten]
        intro t ht
        rcases List.mem_append.1 ht with ht | ht
        · exact silent_of_bare hbare callee t ht
        · exact .inl (List.mem_singleton.1 ht)
      have hsame := eq_of_writeOut_silent hsilent
      rw [hwritten] at hsame
      rw [List.append_cancel_right hsame]
  · rintro (⟨bare, callee₁, after₁, hsplit, hbare, hafter₁⟩ | hnone)
    · have hcallee₁ : callee₁ = none → ∀ f, bare.getLast? ≠ some (function f) := by
        intro _ f hlast
        rcases hbare _ (List.mem_of_getLast? hlast) with h | h <;> cases h
      have hwrite₁ : writeOut (bare ++ (Option.map function callee₁).toList ++ opening :: after₁) =
          bare ++ (Option.map function callee₁).toList ++ opening :: writeOut after₁ := by
        rw [writeOut_silent_append (silent_of_bare hbare callee₁), writeOut_opening]
      rw [hsplit] at hdepth ⊢
      exact (squareOf_prepare_iff_bare mode hafter₁ hwrite₁ hcallee₁ hdepth).2 (.inr hbare)
    · exact hiff.2 (.inl hnone)

/--
Behind one more opening bracket the tokens leave a bracket open and are an expression, once the
brackets that are open are closed.
-/
def FitsBehindOpening (ts : List Token) : Prop :=
  (∃ n, depthAfter 1 ts = some (n + 1)) ∧ ∃ e, Expr.ofInfix (toPlain (opening :: ts)) = .ok e

/-- Closing the last open bracket, tokens end with the operand that it begins. -/
theorem exists_writeOut_closed {ts : List Token} {n : Nat}
    (hdepth : depthAfter 0 ts = some (n + 1)) :
    ∃ before callee after, Matched after ∧
      (callee = none → ∀ f, before.getLast? ≠ some (function f)) ∧
      writeOut ts ++ [closing] = before ++ enclosed callee after := by
  obtain ⟨before, after, rfl, -, hafter⟩ := exists_last_open hdepth
  obtain ⟨written, -, hwrite⟩ := exists_writeOut_append_opening before
  obtain ⟨before', callee, rfl, hcallee⟩ := exists_callee written
  have hmatched : Matched (writeOut after) := by rw [Matched, depthAfter_writeOut, hafter]
  exact ⟨before', callee, writeOut after, hmatched, hcallee, by simp [hwrite, enclosed]⟩

/-- Tokens that leave a bracket open have a tree exactly if they have one with it squared. -/
theorem exists_ofInfix_toPlain_raise_iff {ts : List Token} {n : Nat}
    (hdepth : depthAfter 0 ts = some (n + 1)) :
    (∃ e, Expr.ofInfix (toPlain (ts ++ [closing, operator .raise, number 2])) = .ok e) ↔
      ∃ e, Expr.ofInfix (toPlain ts) = .ok e := by
  obtain ⟨before, callee, after, hafter, hcallee, hclosed⟩ := exists_writeOut_closed hdepth
  have hend : writeOut [closing, operator .raise, number 2] =
      [closing] ++ [operator .raise, number 2] := rfl
  have hsquare : depthAfter 0 (ts ++ [closing, operator .raise, number 2]) = some n := by
    rw [depthAfter_append, hdepth]
    rfl
  have hopen : depthAfter 0 (before ++ enclosed callee after) = some n := by
    rw [← hclosed, depthAfter_append, depthAfter_writeOut, hdepth]
    rfl
  have hfilled (s : Postfix.State) :=
    @Postfix.exists_filled_of_readAll_append_enclosed _ _ _ hafter hcallee s
  have hline : toPlain ts =
      before ++ enclosed callee after ++ List.replicate n closing := by
    rw [toPlain_of_depthAfter hdepth, ← hclosed, List.append_assoc, List.singleton_append]
    rfl
  rw [hline, toPlain_of_depthAfter hsquare, writeOut_append_cons (.inl rfl), hend,
    ← List.append_assoc, hclosed, Expr.exists_ofInfix_iff, Expr.exists_ofInfix_iff]
  simp only [Postfix.ofInfix_raise_closings_eq_ok_iff hopen hfilled,
    Postfix.ofInfix_append_closings_eq_ok_iff hopen hfilled]
  constructor
  · rintro ⟨-, output, pending, hread, hsaturated, -⟩
    exact ⟨_, output, pending, hread, hsaturated, rfl⟩
  · rintro ⟨-, output, pending, hread, hsaturated, -⟩
    exact ⟨_, output, pending, hread, hsaturated, rfl⟩

/-- The square of tokens has a tree exactly if they fit behind its opening bracket. -/
theorem exists_ofInfix_squared_iff (mode : AngleMode) (ts : List Token) :
    (∃ e, Expr.ofInfix (prepare mode (squared ts)) = .ok e) ↔ FitsBehindOpening ts := by
  rw [exists_ofInfix_prepare_iff]
  by_cases hopen : ∃ n, depthAfter 1 ts = some (n + 1)
  · obtain ⟨n, hdepth⟩ := hopen
    have hline : depthAfter 0 (opening :: ts) = some (n + 1) := hdepth
    exact (exists_ofInfix_toPlain_raise_iff hline).trans ⟨fun h => ⟨⟨n, hdepth⟩, h⟩, And.right⟩
  · -- The bracket put behind closes one that was never opened.
    have hsurplus : depthAfter 0 (squared ts) = none := by
      rw [squared, depthAfter, depthAfter_append]
      rcases hdepth : depthAfter 1 ts with _ | _ | n
      · rfl
      · rfl
      · exact absurd ⟨n, hdepth⟩ hopen
    refine iff_of_false ?_ fun hfits => hopen hfits.1
    rintro ⟨e, he⟩
    have hmatched : depthAfter 0 (prepare .radians (squared ts)) = some 0 :=
      (Expr.ofInfix_eq_ok_iff.1 he).matched
    rw [depthAfter_prepare_eq_none .radians hsurplus] at hmatched
    cases hmatched

end Token

/-! ## The square key -/

/--
The text of a square has a tree exactly if the text has one, and then it is the square of that tree.
-/
def SquaresWhole (mode : AngleMode) (source : String) : Prop :=
  ∀ e, Expr.ofText mode (squaredText source) = .ok e ↔
    ∃ e', Expr.ofText mode source = .ok e' ∧ e = .binary .raise e' (.number 2)

/--
The brackets of the text do no harm to its square. A text with open brackets is unwrapped or has no
tree, and one that closes a bracket it has not opened does not fit behind the missing one.
-/
def SquareSafe (mode : AngleMode) (source : String) : Prop :=
  match depthAfter 0 (lex source) with
  | some 0 => True
  | some (_ + 1) => Token.Unwrapped (lex source) ∨ ∀ e, Expr.ofText mode source ≠ .ok e
  | none => ¬Token.FitsBehindOpening (lex source)

/-- The square of a text is that of the whole exactly if the brackets of the text do no harm. -/
theorem squaresWhole_iff (mode : AngleMode) (source : String) :
    SquaresWhole mode source ↔ SquareSafe mode source := by
  have htokens : SquaresWhole mode source ↔
      SquareOf (prepare mode (lex source)) (prepare mode (squared (lex source))) := by
    rw [SquaresWhole, Expr.ofText, Expr.ofText, Token.lex_squaredText, SquareOf]
  rw [htokens, SquareSafe]
  rcases hdepth : depthAfter 0 (lex source) with _ | _ | n
  · have hnone (e : Expr) : Expr.ofInfix (prepare mode (lex source)) ≠ .ok e := by
      intro he
      have hmatched := (Expr.ofInfix_eq_ok_iff.1 he).matched
      rw [Matched, Token.depthAfter_prepare_eq_none mode hdepth] at hmatched
      cases hmatched
    simp only [SquareOf, hnone, false_and, exists_false, iff_false]
    rw [← Token.exists_ofInfix_squared_iff mode, not_exists]
  · obtain ⟨hmatched, hsquared⟩ := Token.prepare_squared mode hdepth
    rw [hsquared]
    exact iff_of_true (squareOf_squared hmatched) trivial
  · exact Token.squareOf_prepare_open_iff mode hdepth

/-- The square key answers the settled value of the bracketed and squared text. -/
theorem Session.takeSquare_eq_ok_iff (s : Session) (c : Calculation) :
    s.takeSquare.1 = .ok c ↔ ∃ v, rawValue (squaredText s.line.source) s.context = .ok v ∧
      c = { expression := "(" ++ Entry.displayAll s.line.toList ++ ")²"
            result := s.context.rounding.settle v } := by
  have hconclude (outcome : Except Fault Calculation) : (s.conclude outcome).1 = outcome := by
    cases outcome <;> rfl
  have htext : "(" ++ s.line.source ++ ")^2" = squaredText s.line.source := rfl
  rw [takeSquare, hconclude, htext, evaluate_eq]
  rcases rawValue (squaredText s.line.source) s.context with fault | v
  · simp [bind, Except.bind, Except.map]
  · simp [bind, Except.bind, Except.map, pure, Except.pure, eq_comm]

/--
The square key squares the whole line exactly if the brackets of the line do no harm. Then it
answers if and only if the line has a value whose square is finite, and the answer is that square,
settled.
-/
theorem Session.takeSquare_squares_line (s : Session) :
    (SquaresWhole s.context.angles s.line.source ↔ SquareSafe s.context.angles s.line.source) ∧
      (SquareSafe s.context.angles s.line.source → ∀ c, s.takeSquare.1 = .ok c ↔
        ∃ a, rawValue s.line.source s.context = .ok a ∧ (Float.pow a 2).isFinite = true ∧
          c = { expression := "(" ++ Entry.displayAll s.line.toList ++ ")²"
                result := s.context.rounding.settle (Float.pow a 2) }) := by
  refine ⟨squaresWhole_iff _ _, fun hsafe c => ?_⟩
  have hwhole := (squaresWhole_iff _ _).2 hsafe
  have hvalue (v : Float) : rawValue (squaredText s.line.source) s.context = .ok v ↔
      ∃ a, rawValue s.line.source s.context = .ok a ∧ (Float.pow a 2).isFinite = true ∧
        v = Float.pow a 2 := by
    simp only [rawValue_eq_ok_iff]
    constructor
    · rintro ⟨e, he, hv⟩
      obtain ⟨e', he', rfl⟩ := (hwhole e).1 he
      obtain ⟨a, ha, hfinite, rfl⟩ := Expr.value_square_eq_ok_iff.1 hv
      exact ⟨a, ⟨e', he', ha⟩, hfinite, rfl⟩
    · rintro ⟨a, ⟨e', he', ha⟩, hfinite, rfl⟩
      exact ⟨_, (hwhole _).2 ⟨e', he', rfl⟩, Expr.value_square_eq_ok_iff.2 ⟨a, ha, hfinite, rfl⟩⟩
  rw [takeSquare_eq_ok_iff]
  constructor
  · rintro ⟨v, hv, rfl⟩
    obtain ⟨a, ha, hfinite, rfl⟩ := (hvalue v).1 hv
    exact ⟨a, ha, hfinite, rfl⟩
  · rintro ⟨a, ha, hfinite, rfl⟩
    exact ⟨_, (hvalue _).2 ⟨a, ha, hfinite, rfl⟩, rfl⟩

/-- A root whose bracket is still open is squared as a whole. -/
theorem Session.takeSquare_squares_open_root :
    let s : Session := { line := .entries [.function .sqrt, .digit 9] }
    SquareSafe s.context.angles s.line.source ∧
      ∀ c, s.takeSquare.1 = .ok c ↔
        ∃ a, rawValue s.line.source s.context = .ok a ∧ (Float.pow a 2).isFinite = true ∧
          c = { expression := "(" ++ Entry.displayAll s.line.toList ++ ")²"
                result := s.context.rounding.settle (Float.pow a 2) } := by
  intro s
  have hlex : lex s.line.source = [.function .sqrt, .opening, .number 9] := by decide +kernel
  have hsafe : SquareSafe s.context.angles s.line.source := by
    rw [SquareSafe, hlex]
    exact .inl ⟨[], some .sqrt, [.number 9], rfl, by simp [Bare], rfl⟩
  exact ⟨hsafe, s.takeSquare_squares_line.2 hsafe⟩

/-- The square of the open sum `2+(3` is that of its last operand. -/
theorem squaresWhole_open_sum_false :
    Expr.ofText .radians "2+(3" = .ok (.binary .add (.number 2) (.number 3)) ∧
      Expr.ofText .radians (squaredText "2+(3") =
        .ok (.binary .add (.number 2) (.binary .raise (.number 3) (.number 2))) ∧
      ¬SquaresWhole .radians "2+(3" := by
  have hlex : lex "2+(3" = [.number 2, .operator .add, .opening, .number 3] := by decide +kernel
  have hline : Expr.ofText .radians "2+(3" = .ok (.binary .add (.number 2) (.number 3)) := by
    rw [Expr.ofText, hlex]
    rfl
  have hsquare : Expr.ofText .radians (squaredText "2+(3") =
      .ok (.binary .add (.number 2) (.binary .raise (.number 3) (.number 2))) := by
    rw [Expr.ofText, Token.lex_squaredText, hlex]
    rfl
  refine ⟨hline, hsquare, fun hwhole => ?_⟩
  have hexpected := (hwhole _).2 ⟨_, hline, rfl⟩
  rw [hsquare] at hexpected
  cases hexpected

end SciCalc
