import SciCalc.Proofs.Grammar
import SciCalc.Proofs.Reading

/-!
# Reading what the grammar derives

Tokens that the grammar derives are read from any state before an operand, as long as what waits
there leaves room for their category. Some operators may be left waiting; once these are released
too, the output has grown by exactly the listing of the tree. The proof is an induction on the
derivation. What carries it is how strong the operators are that a category leaves behind, since the
operator that arrives next has to release all of them and nothing below.
-/

set_option autoImplicit false

namespace SciCalc.Postfix

open Grammar

/-- What waits on the stack leaves room for an operand of the category. -/
def Room : Category → List Pending → Prop
  | .sum, pending => Stops (Pending.precedes .add) pending
  | .product, pending => Stops (Pending.precedes .multiply) pending
  | _, _ => True

/-- Operators that an operand of the category may leave on the stack. -/
def Leaves : Category → List Pending → Prop
  | .sum, ops => ∀ x ∈ ops, x.precedes .add = true
  | .atom, ops => ops = []
  | _, ops => ∀ x ∈ ops, x.precedes .multiply = true

/-- The tokens are read as an operand of the category with the given listing. -/
def ReadsAs (c : Category) (ts listing : List Token) : Prop :=
  ∀ (output : List Token) (pending : List Pending), Room c pending →
    ∃ ops output', readAll (.ready output pending) ts = .ok (.filled output' (ops ++ pending)) ∧
      Leaves c ops ∧ released ops output' = listing.reverse ++ output

/-- What a sum leaves is no bracket. -/
theorem isBracket_of_leaves_sum {ops : List Pending} (h : Leaves .sum ops) :
    ∀ x ∈ ops, x.isBracket = false :=
  fun x hx => Pending.isBracket_of_precedes (h x hx)

/-- Behind an open bracket there is room for any operand. -/
theorem room_bracket (c : Category) (callee : Option MathFunction) (commas : Nat)
    (pending : List Pending) : Room c (.bracket callee commas :: pending) := by
  cases c <;> simp [Room, stops_cons, Pending.precedes]

/-- One token that becomes an operand is read as an atom. -/
theorem ReadsAs.single {t : Token}
    (h : ∀ output pending,
      (State.ready output pending).step t = .ok (.filled (t :: output) pending)) :
    ReadsAs .atom [t] [t] := by
  intro output pending _
  refine ⟨[], t :: output, ?_, rfl, rfl⟩
  rw [readAll_singleton, h]
  rfl

/-- An operand of a category is one of every weaker category. -/
theorem ReadsAs.weaken {c c' : Category} {ts listing : List Token} (h : ReadsAs c ts listing)
    (hroom : ∀ pending, Room c' pending → Room c pending)
    (hleaves : ∀ ops, Leaves c ops → Leaves c' ops) : ReadsAs c' ts listing := by
  intro output pending hr
  obtain ⟨ops, output', hread, hl, hout⟩ := h output pending (hroom pending hr)
  exact ⟨ops, output', hread, hleaves ops hl, hout⟩

/--
An operand of the category `c`, an operator that releases what it leaves, and an operand of the
category `c'` for which the operator leaves room are read as an operand of the category `c`.
-/
theorem ReadsAs.chain {c c' : Category} {op : Operator} {ts us lt lu : List Token}
    (hl : ReadsAs c ts lt) (hr : ReadsAs c' us lu)
    (hrelease : ∀ ops, Leaves c ops → ∀ x ∈ ops, x.precedes op = true)
    (hstop : ∀ pending, Room c pending → Stops (Pending.precedes op) pending)
    (hroom : ∀ pending, Room c' (.operator op :: pending))
    (hleaves : ∀ ops, Leaves c' ops → Leaves c (ops ++ [.operator op])) :
    ReadsAs c (ts ++ .operator op :: us) (lt ++ lu ++ [.operator op]) := by
  intro output pending hp
  obtain ⟨ops, out, hread, hlv, hout⟩ := hl output pending hp
  obtain ⟨ops', out', hread', hlv', hout'⟩ :=
    hr (released ops out) (.operator op :: pending) (hroom pending)
  refine ⟨ops' ++ [.operator op], out', ?_, hleaves ops' hlv', ?_⟩
  · have hstep := State.step_filled_operator out (hrelease ops hlv) (hstop pending hp)
    rw [readAll_append_of_ok hread, readAll_cons_of_ok hstep, hread', List.append_assoc,
      List.singleton_append]
  · rw [released_append, hout', hout, released_singleton]
    simp [Pending.token]

/-- A power sign between an atom and a signed operand makes a power. -/
theorem ReadsAs.power {ts us lt lu : List Token} (hl : ReadsAs .atom ts lt)
    (hr : ReadsAs .signed us lu) :
    ReadsAs .power (ts ++ .operator .raise :: us) (lt ++ lu ++ [.operator .raise]) := by
  intro output pending _
  obtain ⟨ops, out, hread, rfl, hout⟩ := hl output pending trivial
  obtain ⟨ops', out', hread', hlv', hout'⟩ := hr out (.operator .raise :: pending) trivial
  refine ⟨ops' ++ [.operator .raise], out', ?_, ?_, ?_⟩
  · rw [readAll_append_of_ok hread, List.nil_append,
      readAll_cons_of_ok (State.step_filled_raise out pending), hread', List.append_assoc,
      List.singleton_append]
  · intro x hx
    rcases List.mem_append.1 hx with hx | hx
    · exact hlv' x hx
    · rw [List.mem_singleton.1 hx]
      rfl
  · rw [released_nil] at hout
    rw [released_append, hout', hout, released_singleton]
    simp [Pending.token]

/-- A minus before a signed operand negates it. -/
theorem ReadsAs.minus {ts lt : List Token} (h : ReadsAs .signed ts lt) :
    ReadsAs .signed (.operator .subtract :: ts) (lt ++ [.negate]) := by
  intro output pending _
  obtain ⟨ops, out, hread, hlv, hout⟩ := h output (.negation :: pending) trivial
  refine ⟨ops ++ [.negation], out, ?_, ?_, ?_⟩
  · rw [readAll_cons_of_ok (State.step_ready_subtract output pending), hread, List.append_assoc,
      List.singleton_append]
  · intro x hx
    rcases List.mem_append.1 hx with hx | hx
    · exact hlv x hx
    · rw [List.mem_singleton.1 hx]
      rfl
  · rw [released_append, hout, released_singleton]
    simp [Pending.token]

/-- A plus before a signed operand changes nothing. -/
theorem ReadsAs.plus {ts lt : List Token} (h : ReadsAs .signed ts lt) :
    ReadsAs .signed (.operator .add :: ts) lt := by
  intro output pending hr
  rw [readAll_cons_of_ok (State.step_ready_add output pending)]
  exact h output pending hr

/-- Brackets around a sum make an atom. -/
theorem ReadsAs.bracketed {ts lt : List Token} (h : ReadsAs .sum ts lt) :
    ReadsAs .atom (.opening :: (ts ++ [.closing])) lt := by
  intro output pending _
  obtain ⟨ops, out, hread, hlv, hout⟩ :=
    h output (.bracket none 0 :: pending) (room_bracket .sum none 0 pending)
  refine ⟨[], released ops out, ?_, rfl, hout⟩
  rw [readAll_cons_of_ok (State.step_ready_opening output pending), readAll_append_of_ok hread,
    readAll_singleton,
    State.step_filled_closing_bracket out (isBracket_of_leaves_sum hlv) 0 pending]
  rfl

/-- The arguments of a call are read inside its bracket, which counts the commas between them. -/
theorem readAll_arguments (f : MathFunction) (args : List (List Token × List Token))
    (hne : args ≠ []) (h : ∀ a ∈ args, ReadsAs .sum a.1 a.2) (output : List Token) (commas : Nat)
    (pending : List Pending) :
    ∃ ops output',
      readAll (.ready output (.bracket (some f) commas :: pending))
          ([Token.comma].intercalate (args.map Prod.fst)) =
        .ok (.filled output'
          (ops ++ .bracket (some f) (commas + (args.length - 1)) :: pending)) ∧
      Leaves .sum ops ∧ released ops output' = (args.flatMap Prod.snd).reverse ++ output := by
  induction args generalizing output commas with
  | nil => exact absurd rfl hne
  | cons a args ih =>
    obtain ⟨ops, out, hread, hlv, hout⟩ :=
      h a (by simp) output (.bracket (some f) commas :: pending) (room_bracket ..)
    cases args with
    | nil => exact ⟨ops, out, by simpa using hread, hlv, by simpa using hout⟩
    | cons b args =>
      obtain ⟨ops', out', hread', hlv', hout'⟩ :=
        ih (by simp) (fun x hx => h x (by simp [hx])) (released ops out) (commas + 1)
      refine ⟨ops', out', ?_, hlv', ?_⟩
      · have hcount : commas + 1 + ((b :: args).length - 1) =
            commas + ((a :: b :: args).length - 1) := by
          simp only [List.length_cons]
          omega
        have hstep := State.step_filled_comma out (isBracket_of_leaves_sum hlv) f commas pending
        rw [List.map_cons, List.intercalate_cons_of_ne_nil (by simp), List.append_assoc,
          readAll_append_of_ok hread, List.singleton_append, readAll_cons_of_ok hstep, hread',
          hcount]
      · rw [hout', hout]
        simp

/-- Every function takes an argument. -/
theorem arity_pos (f : MathFunction) : 0 < f.arity := by cases f <;> decide

/-- A call with the right number of sums as arguments is an atom. -/
theorem ReadsAs.call {f : MathFunction} {args : List (List Token × List Token)}
    (hlen : args.length = f.arity) (h : ∀ a ∈ args, ReadsAs .sum a.1 a.2) :
    ReadsAs .atom
      (.function f :: .opening :: ([Token.comma].intercalate (args.map Prod.fst) ++ [.closing]))
      (args.flatMap Prod.snd ++ [.function f]) := by
  intro output pending _
  have hpos := arity_pos f
  have hne : args ≠ [] := by
    rintro rfl
    simp only [List.length_nil] at hlen
    omega
  obtain ⟨ops, out, hread, hlv, hout⟩ := readAll_arguments f args hne h output 0 pending
  refine ⟨[], .function f :: released ops out, ?_, rfl, by simp [hout]⟩
  rw [State.readAll_call, readAll_append_of_ok hread, readAll_singleton,
    State.step_filled_closing_call out (isBracket_of_leaves_sum hlv),
    if_pos (by omega)]
  rfl

/-- What the plain grammar derives is read as an operand with the listing of its tree. -/
theorem readsAs_of_derives {c : Category} {ts : List Token} {e : Expr}
    (h : Derives .plain c ts e) : ReadsAs c ts e.listing := by
  induction h with
  | sumOfProduct _ ih =>
    refine ih.weaken (fun pending hp x hx => ?_) fun ops hops x hx =>
      Pending.precedes_add_of_multiply (hops x hx)
    cases hm : x.precedes .multiply with
    | false => rfl
    | true => exact absurd (Pending.precedes_add_of_multiply hm) (by simp [hp x hx])
  | @sum op _ _ _ _ hop _ _ ihl ihr =>
    have hsign : Pending.precedes op = Pending.precedes .add := by
      rcases hop with rfl | rfl
      · rfl
      · exact Pending.precedes_subtract
    refine ihl.chain ihr (fun ops hops x hx => ?_) (fun pending hp => ?_) (fun pending => ?_)
      fun ops hops x hx => ?_
    · rw [hsign]
      exact hops x hx
    · rw [hsign]
      exact hp
    · rw [Room, stops_cons]
      rcases hop with rfl | rfl <;> rfl
    · rcases List.mem_append.1 hx with hx | hx
      · exact Pending.precedes_add_of_multiply (hops x hx)
      · rw [List.mem_singleton.1 hx]
        rcases hop with rfl | rfl <;> rfl
  | productOfSigned _ ih => exact ih.weaken (fun _ _ => trivial) fun _ hops => hops
  | @product op _ _ _ _ hop _ _ ihl ihr =>
    have hsign : Pending.precedes op = Pending.precedes .multiply := by
      rcases hop with rfl | rfl
      · rfl
      · exact Pending.precedes_divide
    refine ihl.chain ihr (fun ops hops x hx => ?_) (fun pending hp => ?_) (fun _ => trivial)
      fun ops hops x hx => ?_
    · rw [hsign]
      exact hops x hx
    · rw [hsign]
      exact hp
    · rcases List.mem_append.1 hx with hx | hx
      · exact hops x hx
      · rw [List.mem_singleton.1 hx]
        rcases hop with rfl | rfl <;> rfl
  | juxtaposed hjoins => exact hjoins.elim
  | signedOfPower _ ih => exact ih.weaken (fun _ _ => trivial) fun _ hops => hops
  | minus _ ih => exact ih.minus
  | plus _ ih => exact ih.plus
  | powerOfAtom _ ih =>
    refine ih.weaken (fun _ _ => trivial) ?_
    rintro _ rfl x hx
    simp at hx
  | power _ _ ihl ihr => exact ihl.power ihr
  | number v => exact .single fun output pending => State.step_ready_number output pending v
  | pi => exact .single State.step_ready_pi
  | answer => exact .single State.step_ready_answer
  | leaf hleaf => exact hleaf.elim
  | bracketed _ ih => exact ih.bracketed
  | call f arguments trees _ ih =>
    have hargs : ∀ a ∈ List.ofFn fun i => (arguments i, (trees i).listing),
        ReadsAs .sum a.1 a.2 := by
      intro a ha
      obtain ⟨i, rfl⟩ := List.mem_ofFn.1 ha
      exact ih i
    have hcall := ReadsAs.call List.length_ofFn hargs
    have hfst : (List.ofFn fun i => (arguments i, (trees i).listing)).map Prod.fst =
        List.ofFn arguments := by
      rw [List.map_ofFn]
      rfl
    have hsnd : (List.ofFn fun i => (arguments i, (trees i).listing)).flatMap Prod.snd =
        Expr.listingAll (List.ofFn trees) := by
      rw [Expr.listingAll_eq_flatMap, List.flatMap_def, List.flatMap_def, List.map_ofFn,
        List.map_ofFn]
      rfl
    rw [hfst, hsnd] at hcall
    exact hcall

end SciCalc.Postfix
