import SciCalc.Proofs.Displays

/-!
# What the history says of a line

A line of arithmetic that reads as shown has the same tree for both its texts. Here is the converse,
so that nothing else on a line keeps the text shown from standing for what was calculated. Two
product signs have no tree. Otherwise the text shown is read as no more literals and negations than
the text evaluated, and as fewer where a sign is taken for a difference or a digit goes on a number;
and where a number is taken from its sign, the trees are different ones.
-/

set_option autoImplicit false

namespace SciCalc

open Binary64 (isNegative field)

namespace Token

open Entry (sourceAll displayAll Apart)

/-! ## Counting in texts -/

/-- A numeral is one part. -/
theorem parts_ofNumeral_cons (awaited : Bool) (cs : List Char) (ts : List Token) :
    parts awaited (ofNumeral cs :: ts) = 1 + parts false ts := by
  rw [parts, awaitsOperand_ofNumeral, ofNumeral]
  split <;> rfl

/-- How many parts there are does not depend on the beginning of a numeral. -/
theorem parts_lexFrom_numeral_congr (awaited awaited' : Bool)
    (backwards backwards' cs : List Char) :
    parts awaited (lexFrom (.numeral backwards) cs) =
      parts awaited' (lexFrom (.numeral backwards') cs) := by
  induction cs generalizing backwards backwards' with
  | nil =>
    exact (parts_ofNumeral_cons awaited _ []).trans (parts_ofNumeral_cons awaited' _ []).symm
  | cons c cs ih =>
    by_cases hc : inNumeral c = true
    · obtain ⟨-, hgrow⟩ := @lexFrom_append_numeral [c] (by simp) (by simpa using hc) cs
      exact (congrArg _ (hgrow _)).trans ((ih _ _).trans (congrArg _ (hgrow _)).symm)
    · have hhead : ∀ d ∈ (c :: cs).head?, inNumeral d = false := by simpa using hc
      rw [lexFrom_numeral_of_head? hhead, lexFrom_numeral_of_head? hhead, parts_ofNumeral_cons,
        parts_ofNumeral_cons]

/-- A numeral is one part more than what follows, unless that goes on it. -/
theorem parts_lexFrom_numeral (awaited : Bool) (backwards cs : List Char) :
    parts awaited (lexFrom (.numeral backwards) cs) + (cs.head?.any inNumeral).toNat =
      1 + parts false (lexFrom .nothing cs) := by
  by_cases hcs : ∃ c rest, cs = c :: rest ∧ inNumeral c = true
  · obtain ⟨c, rest, rfl, hc⟩ := hcs
    obtain ⟨hstart, hgrow⟩ := @lexFrom_append_numeral [c] (by simp) (by simpa using hc) rest
    rw [List.head?_cons, Option.any_some, hc, Nat.add_comm]
    refine congrArg (1 + ·) ?_
    exact (congrArg _ (hgrow _)).trans
      ((parts_lexFrom_numeral_congr _ _ _ _ _).trans (congrArg _ hstart).symm)
  · have hhead : ∀ c ∈ cs.head?, inNumeral c = false := by
      intro c hc
      obtain ⟨rest, rfl⟩ := List.head?_eq_some_iff.1 hc
      exact Bool.eq_false_iff.2 fun h => hcs ⟨c, rest, rfl, h⟩
    have hany : cs.head?.any inNumeral = false := by
      simpa [Option.any_eq_false] using hhead
    rw [lexFrom_numeral_of_head? hhead, parts_ofNumeral_cons, hany]
    rfl

section Lines

variable {es : List Entry}

/-- An entry of digits is one part more in both texts, unless the line goes on its numeral. -/
theorem parts_lex_cons_digits {e : Entry} (he : e.IsArithmetic) (hdigits : e.isNumeral = true)
    (hes : ∀ e ∈ es, e.IsArithmetic) (awaited : Bool) :
    parts awaited (lex (sourceAll (e :: es))) + (es.head?.any Entry.isNumeral).toNat =
        1 + parts false (lex (sourceAll es)) ∧
      parts awaited (lex (displayAll (e :: es))) + (es.head?.any Entry.isNumeral).toNat =
        1 + parts false (lex (displayAll es)) := by
  obtain ⟨ds, hne, hds, hsourceText, hdisplayText⟩ := Entry.exists_numeral he hdigits
  obtain ⟨hsource, hdisplay⟩ := Entry.head?_any_inNumeral hes
  have hparts (cs : List Char) :
      parts awaited (lexFrom .nothing (ds ++ cs)) + (cs.head?.any inNumeral).toNat =
        1 + parts false (lexFrom .nothing cs) := by
    rw [(lexFrom_append_numeral hne hds cs).1]
    exact parts_lexFrom_numeral awaited _ cs
  constructor
  · rw [lex, Entry.toList_sourceAll_cons, hsourceText, ← hsource]
    exact hparts _
  · rw [lex, Entry.toList_displayAll_cons, hdisplayText, ← hdisplay]
    exact hparts _

/--
A number with a sign is shown as one part more, unless the line goes on its numeral, and its sign as
another where an operand is awaited. A number below zero is evaluated as two parts more.
-/
theorem parts_lex_cons_number {v : Float} (hfinite : v.isFinite = true)
    (hsign : isNegative v = true) (hes : ∀ e ∈ es, e.IsArithmetic) (awaited : Bool) :
    parts awaited (lex (displayAll (.number v :: es))) + (es.head?.any Entry.isNumeral).toNat =
        awaited.toNat + (1 + parts false (lex (displayAll es))) ∧
      if v < 0 then
        parts awaited (lex (sourceAll (.number v :: es))) = 2 + parts false (lex (sourceAll es))
      else
        parts awaited (lex (sourceAll (.number v :: es))) + (es.head?.any Entry.isNumeral).toNat =
          awaited.toNat + (1 + parts false (lex (sourceAll es))) := by
  obtain ⟨hsource, hdisplay⟩ := Entry.head?_any_inNumeral hes
  have hparts (cs : List Char) :
      parts awaited (lexFrom .nothing ((Entry.number v).display.toList ++ cs)) +
          (cs.head?.any inNumeral).toNat =
        awaited.toNat + (1 + parts false (lexFrom .nothing cs)) := by
    rw [lexFrom_display_number hfinite hsign, parts, Nat.add_assoc, parts_lexFrom_numeral]
    rfl
  refine ⟨?_, ?_⟩
  · rw [lex, Entry.toList_displayAll_cons, ← hdisplay]
    exact hparts _
  · split
    case isTrue hv =>
      rw [lex, Entry.toList_sourceAll_cons, lexFrom_source_number hfinite hsign hv]
      simp [parts, isPart, awaitsOperand, lex]
      omega
    case isFalse hv =>
      obtain ⟨hdisplayText, hsourceText⟩ := Entry.texts_of_isNegative hfinite hsign
      rw [if_neg hv, ← hdisplayText] at hsourceText
      rw [lex, Entry.toList_sourceAll_cons, hsourceText, ← hsource]
      exact hparts _

/-- An entry that is no number below zero stays apart from what follows it, if that is awaited. -/
theorem isChain_apart_cons {e : Entry} (hzero : e.isBelowZero = false)
    (htwice : ∀ b ∈ es.head?, e = .operator .multiply → b ≠ .operator .multiply)
    (hnext : ∀ b ∈ es.head?, b.isBelowZero = true → e.awaitsOperand = true)
    (h : es.IsChain Apart) : (e :: es).IsChain Apart := by
  refine List.isChain_cons.2 ⟨fun b hb => ⟨htwice b hb, hnext b hb, fun hbelow => ?_⟩, h⟩
  rw [hzero] at hbelow
  cases hbelow

/--
The text shown is read as no more literals and negations than the text evaluated, and as fewer
unless its entries are shown apart.
-/
theorem parts_lex_displayAll_le (hes : ∀ e ∈ es, e.IsArithmetic)
    (htwice : es.IsChain fun a b => a = .operator .multiply → b ≠ .operator .multiply)
    (awaited : Bool) :
    parts awaited (lex (displayAll es)) ≤ parts awaited (lex (sourceAll es)) ∧
      (parts awaited (lex (sourceAll es)) ≤ parts awaited (lex (displayAll es)) →
        es.IsChain Apart ∧ ∀ e ∈ es.head?, e.isBelowZero = true → awaited = true) := by
  -- Each entry is as many parts in both texts, but for a number below zero: that is two in the text
  -- evaluated, and two in the text shown only where an operand is awaited and no numeral follows.
  induction es generalizing awaited with
  | nil => exact ⟨Nat.le_refl _, fun _ => ⟨.nil, by simp⟩⟩
  | cons e es ih =>
    obtain ⟨hhead, htail⟩ := List.isChain_cons.1 htwice
    obtain ⟨he, hrest⟩ := List.forall_mem_cons.1 hes
    have ih := ih hrest htail
    have hapart (hzero : e.isBelowZero = false) {next : Bool} (hnext : next = e.awaitsOperand)
        (h : es.IsChain Apart ∧ ∀ b ∈ es.head?, b.isBelowZero = true → next = true) :
        (e :: es).IsChain Apart ∧
          ∀ b ∈ (e :: es).head?, b.isBelowZero = true → awaited = true := by
      subst hnext
      exact ⟨isChain_apart_cons hzero hhead h.2 h.1, by simp [hzero]⟩
    rcases he.cases with hdigits | ⟨t, hsign⟩ | ⟨v, rfl, hfinite, hsign⟩
    · obtain ⟨hsource, hdisplay⟩ := parts_lex_cons_digits he hdigits hrest awaited
      obtain ⟨hle, heq⟩ := ih false
      refine ⟨by omega, fun h => ?_⟩
      exact hapart (Entry.isBelowZero_of_isNumeral he hdigits)
        (Entry.awaitsOperand_of_isNumeral hdigits).symm (heq (by omega))
    · obtain ⟨hle, heq⟩ := ih t.awaitsOperand
      rw [lex_sourceAll_cons hrest hsign fun h hb => hhead _ hb h rfl, lex_displayAll_cons hsign,
        parts, parts]
      refine ⟨by omega, fun h => ?_⟩
      exact hapart (Entry.isBelowZero_of_sign? hsign) (Entry.awaitsOperand_of_sign? hsign)
        (heq (by omega))
    · obtain ⟨hdisplay, hsource⟩ := parts_lex_cons_number hfinite hsign hrest awaited
      obtain ⟨hle, heq⟩ := ih false
      have hawaited := awaited.toNat_le
      split at hsource
      case isTrue hv =>
        refine ⟨by omega, fun h => ?_⟩
        obtain ⟨hchain, hzero⟩ := heq (by omega)
        have hnumeral : es.head?.any Entry.isNumeral = false :=
          Bool.toNat_eq_zero.1 (by omega)
        have hset : awaited = true := Bool.toNat_eq_one.1 (by omega)
        refine ⟨List.isChain_cons.2 ⟨fun b hb => ⟨fun h => ?_, fun h => ?_, fun _ => ?_⟩, hchain⟩,
          ?_⟩
        · cases h
        · cases hzero b hb h
        · rw [Option.mem_def.1 hb] at hnumeral
          exact hnumeral
        · exact fun _ _ _ => hset
      case isFalse hv =>
        refine ⟨by omega, fun h => ?_⟩
        exact hapart (decide_eq_false hv) rfl (heq (by omega))

end Lines

end Token

/-! ## Two multiplications -/

/-- Two product signs side by side have no tree. -/
theorem Expr.ofInfix_toPlain_ne_ok (ts us : List Token) (e : Expr) :
    Expr.ofInfix (Token.toPlain (ts ++ .operator .multiply :: .operator .multiply :: us)) ≠
      .ok e := by
  intro h
  have hends : Token.EndsOperand (.operator .multiply) := .inr ⟨_, rfl⟩
  obtain ⟨output, ops, hread, -⟩ :=
    Postfix.ofInfix_eq_ok_iff_readAll.1 (Expr.ofInfix_eq_ok_iff_listing.1 h).1
  rw [Token.toPlain_eq, Token.writeOut_append_cons hends, Token.writeOut_operator,
    Token.writeOut_operator, List.append_assoc] at hread
  obtain ⟨s, -, hread⟩ := Postfix.readAll_append_eq_ok_iff.1 hread
  obtain ⟨s', hfirst, hread⟩ := Postfix.readAll_cons_eq_ok_iff.1 hread
  obtain ⟨output', pending, rfl⟩ := (Postfix.step_eq_ok_iff.1 hfirst).exists_ready rfl
  obtain ⟨s'', hsecond, -⟩ := Postfix.readAll_cons_eq_ok_iff.1 hread
  cases hsecond

namespace Entry

variable {es : List Entry}

/-- Two multiplications side by side are shown as two product signs. -/
theorem lex_displayAll_twice (before after : List Entry) :
    Token.lex (displayAll (before ++ operator .multiply :: operator .multiply :: after)) =
      Token.lex (displayAll before) ++
        .operator .multiply :: .operator .multiply :: Token.lex (displayAll after) := by
  have htext : (displayAll (before ++ operator .multiply :: operator .multiply :: after)).toList =
      (displayAll before).toList ++ '×' :: '×' :: (displayAll after).toList := by
    simp [displayAll, display]
  rw [Token.lex, htext, Token.lexFrom_append_cons (Token.cuts_of rfl rfl (by decide))]
  rfl

/-- A line with a tree for the text shown has no two multiplications side by side. -/
theorem isChain_of_ofInfix {e : Expr}
    (h : Expr.ofInfix (Token.toPlain (Token.lex (displayAll es))) = .ok e) :
    es.IsChain fun a b => a = operator .multiply → b ≠ operator .multiply := by
  refine List.isChain_iff_forall_rel_of_append_cons_cons.2 ?_
  rintro a b before after rfl rfl rfl
  rw [lex_displayAll_twice] at h
  exact Expr.ofInfix_toPlain_ne_ok _ _ e h

/-! ## The line -/

/-- On a line of arithmetic that has a tree the text shown has it exactly if it reads as shown. -/
theorem ofText_displayAll_iff {mode : AngleMode} (hes : ∀ e ∈ es, e.IsArithmetic) {tree : Expr}
    (h : Expr.ofText mode (sourceAll es) = .ok tree) :
    Expr.ofText mode (displayAll es) = .ok tree ↔ es.IsChain ReadsAsShown := by
  have hprepare {source : String} (hfunction : ∀ f, .function f ∉ Token.lex source) :
      Expr.ofText mode source = Expr.ofInfix (Token.toPlain (Token.lex source)) := by
    rw [Expr.ofText, Token.prepare_eq_toPlain]
    rintro t ht f rfl
    exact absurd ht (hfunction f)
  rw [hprepare fun f => (function_not_mem_lex hes f).1] at h
  rw [hprepare fun f => (function_not_mem_lex hes f).2]
  have hstart (taken : Bool) (halike : Token.ReadAlike taken es) :=
    (halike.lex true fun _ _ _ => rfl).toPlain
  constructor
  · intro hshown
    have hparts : Token.parts true (Token.lex (sourceAll es)) =
        Token.parts true (Token.lex (displayAll es)) := by
      have hsource := Postfix.countP_of_ofInfix (Expr.ofInfix_eq_ok_iff_listing.1 h).1
      have hdisplay := Postfix.countP_of_ofInfix (Expr.ofInfix_eq_ok_iff_listing.1 hshown).1
      rw [Token.parts_toPlain] at hsource hdisplay
      exact hsource.symm.trans hdisplay
    obtain ⟨-, hapart⟩ := Token.parts_lex_displayAll_le hes (isChain_of_ofInfix hshown) true
    obtain ⟨taken, htaken, halike⟩ := Token.exists_readAlike hes (hapart hparts.le).1
    refine htaken.1 (Bool.eq_false_iff.2 ?_)
    rintro rfl
    exact Expr.ofInfix_ne_of_taken (hstart true halike) h hshown
  · intro hchain
    have hapart : es.IsChain Apart := hchain.imp fun _ _ => ReadsAsShown.apart
    obtain ⟨taken, htaken, halike⟩ := Token.exists_readAlike hes hapart
    obtain rfl := htaken.2 hchain
    exact Expr.ofInfix_of_unbracketed (hstart false halike) h

end Entry

namespace Session

/-- The expression of a calculation is the text shown, and its result the value of the line. -/
theorem of_calculation?_evaluate {s : Session} {c : Calculation}
    (h : s.calculation? .evaluate = some c) :
    c.expression = Text.trim (Entry.displayAll s.line.toList) ∧
      evaluate s.line.source s.context = .ok c.result := by
  refine ⟨?_, calculation?_evaluate.1 ⟨c, h, rfl⟩⟩
  obtain ⟨after, h⟩ := calculation?_eq_some_iff.1 h
  simp only [calculate?, evaluateLine, conclude] at h
  split at h
  · cases h
    rfl
  · cases h

/--
What the history says of a line of arithmetic stands for what was calculated, tree for tree, exactly
if the line reads as shown. Then its value is the result.
-/
theorem expression_stands_for_line {s : Session} {c : Calculation}
    (hline : ∀ e ∈ s.line.toList, e.IsArithmetic) (h : s.calculation? .evaluate = some c) :
    (Expr.ofText s.context.angles c.expression = Expr.ofText s.context.angles s.line.source ↔
        s.line.toList.IsChain Entry.ReadsAsShown) ∧
      (s.line.toList.IsChain Entry.ReadsAsShown →
        evaluate c.expression s.context = .ok c.result) := by
  obtain ⟨hexpression, hvalue⟩ := of_calculation?_evaluate h
  obtain ⟨tree, htree⟩ : ∃ tree, Expr.ofText s.context.angles s.line.source = .ok tree := by
    rcases hraw : rawValue s.line.source s.context with fault | raw
    · rw [evaluate_eq, hraw] at hvalue
      cases hvalue
    · obtain ⟨tree, htree, -⟩ := rawValue_eq_ok_iff.1 hraw
      exact ⟨tree, htree⟩
  have hshown : Expr.ofText s.context.angles c.expression =
      Expr.ofText s.context.angles (Entry.displayAll s.line.toList) := by
    rw [hexpression, Expr.ofText, Expr.ofText, Token.lex_trim]
  have hiff : Expr.ofText s.context.angles c.expression =
      Expr.ofText s.context.angles s.line.source ↔ s.line.toList.IsChain Entry.ReadsAsShown := by
    rw [hshown, htree]
    exact Entry.ofText_displayAll_iff hline htree
  exact ⟨hiff, fun hchain => (evaluate_congr (hiff.2 hchain)).trans hvalue⟩

/-- Behind a product sign a number below zero is shown without brackets and stands for itself. -/
theorem expression_stands_for_line_product :
    let s : Session := { line := .entries [.digit 2, .operator .multiply, .number (-3)] }
    let c : Calculation := { expression := "2×-3", result := -6 }
    (∀ e ∈ s.line.toList, e.IsArithmetic) ∧ s.calculation? .evaluate = some c ∧
      (Expr.ofText s.context.angles c.expression = Expr.ofText s.context.angles s.line.source ↔
        s.line.toList.IsChain Entry.ReadsAsShown) ∧
      s.line.toList.IsChain Entry.ReadsAsShown ∧
      evaluate c.expression s.context = .ok c.result := by
  intro s c
  have hline : ∀ e ∈ s.line.toList, e.IsArithmetic := by decide +kernel
  have hcalculation : s.calculation? .evaluate = some c := by decide +kernel
  have hchain : s.line.toList.IsChain Entry.ReadsAsShown := by decide +kernel
  obtain ⟨hiff, hvalue⟩ := expression_stands_for_line hline hcalculation
  exact ⟨hline, hcalculation, hiff, hchain, hvalue hchain⟩

/-- A digit behind a result below zero is multiplied by it and shown as one more of its digits. -/
theorem expression_misleads :
    let actions : List Action := [.enter (.digit 0), .enter (.operator .subtract),
      .enter (.digit 3), .evaluate, .enter (.digit 2)]
    let s := (Session.start {}).performAll actions
    s.line = .entries [.number (-3), .digit 2] ∧
      s.calculation? .evaluate = some { expression := "-32", result := -6 } ∧
      evaluate "-32" s.context = .ok (-32) ∧ evaluate "-32" s.context ≠ .ok (-6) := by
  intro actions s
  have hline : s.line = .entries [.number (-3), .digit 2] := by decide +kernel
  have hcalculation : s.calculation? .evaluate = some { expression := "-32", result := -6 } := by
    decide +kernel
  have hshown : (evaluate "-32" s.context).toOption = some (-32) := by decide +kernel
  have hvalue : evaluate "-32" s.context = .ok (-32) := by
    cases hvalue : evaluate "-32" s.context with
    | error fault => simp [hvalue, Except.toOption] at hshown
    | ok v => simpa [hvalue, Except.toOption] using hshown
  refine ⟨hline, hcalculation, hvalue, fun h => ?_⟩
  have hne : (-32 : Float) ≠ -6 := by decide +kernel
  exact hne (Except.ok.inj (hvalue.symm.trans h))

end Session

end SciCalc
