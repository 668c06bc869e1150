import SciCalc.Proofs.Ledgers

/-!
# What is saved stays saved

A history is loaded, added to, and written again as a whole, and any read or write of its store may
fail. Adding only ever adds to the list that is stored. Writing everything replaces that list by
what the ledger shows, and this is the list and more as long as the last load has read it; a ledger
whose load has failed shows nothing of it. So the stored list keeps its beginning exactly when no
such ledger is written over it, or only one into which the beginning has been entered again.
-/

set_option autoImplicit false

namespace SciCalc.History

/-- What is done with a history, short of clearing it. -/
inductive Use where
  /-- It is loaded anew from its store. -/
  | load
  | append (r : Record)
  /-- Everything shown is written into the store. -/
  | persist

/-- The records that the lines of records are read as. -/
def reread (records : List Record) : List Record := records.map fun r => Record.ofText r.text

section

variable {σ : Type} [Store σ]

/-- Whether the lines of a store can be read. -/
def reads (store : σ) : Bool := (readLines store).1.isOk

namespace Ledger

/-- The ledger after a use. -/
def use (l : Ledger σ) : Use → Ledger σ
  | .load => load l.store
  | .append r => (l.append r).2
  | .persist => l.persist.2

/-- The ledger after uses, one after the other. -/
def useAll (l : Ledger σ) (uses : List Use) : Ledger σ := uses.foldl use l

/-- Whether the last load has read the store, after a use; `seen` is whether it had before. -/
def seenAfter (l : Ledger σ) (seen : Bool) : Use → Bool
  | .load => reads l.store
  | _ => seen

/-- The records that a use puts in the place of those stored, if it replaces them. -/
def replacement? (l : Ledger σ) : Use → Option (List Record)
  | .load => none
  | .append r =>
    match readLines l.store with
    | (.error .corrupt, store) =>
      let shown : Ledger σ := { records := l.records ++ [r], store }
      if shown.persist.1.isOk then some (reread shown.records) else none
    | _ => none
  | .persist => if l.persist.1.isOk then some (reread l.records) else none

/-- Along the uses, what replaces the stored list after a load that has failed satisfies `p`. -/
def ReplacesBlindly (p : List Record → Prop) : Bool → Ledger σ → List Use → Prop
  | _, _, [] => True
  | seen, l, u :: uses =>
    (∀ records ∈ l.replacement? u, seen = true ∨ p records) ∧
      ReplacesBlindly p (l.seenAfter seen u) (l.use u) uses

end Ledger

namespace Ledger

/-! ## All that a use can do -/

/-- What a use of a ledger can make of the records shown and of the lines kept. -/
inductive Does (l : Ledger σ) (lines : List String) : Use → List Record → List String → Prop where
  | loaded : reads l.store = true → Does l lines .load (lines.map Record.ofText) lines
  | blinded : reads l.store = false → Does l lines .load [] lines
  | added (r : Record) : l.replacement? (.append r) = none →
      Does l lines (.append r) (l.records ++ [r]) (lines ++ [r.text])
  | missed (r : Record) : l.replacement? (.append r) = none →
      Does l lines (.append r) (l.records ++ [r]) lines
  | failed : l.replacement? .persist = none → Does l lines .persist l.records lines
  | replaced {u : Use} (more : List Record) : u ≠ .load →
      l.replacement? u = some (reread (l.records ++ more)) →
      Does l lines u (l.records ++ more) ((l.records ++ more).map Record.text)

variable {l : Ledger σ} {lines : List String}

/-! ## What a use keeps -/

section

variable {u : Use} {records base : List Record} {lines' : List String} {seen : Bool}

/-- The records of written lines are those that the lines are read as. -/
theorem map_ofText_text (records : List Record) :
    (records.map Record.text).map Record.ofText = reread records := List.map_map

/-- The records of lines are read back from their own lines. -/
theorem reread_map_ofText (lines : List String) :
    reread (lines.map Record.ofText) = lines.map Record.ofText := by
  have hstable : ∀ r ∈ lines.map Record.ofText, Record.ofText r.text = r := by
    intro r hr
    obtain ⟨line, -, rfl⟩ := List.mem_map.1 hr
    exact Record.stable_ofText line
  exact (List.map_congr_left hstable).trans (List.map_id _)

/-- Joined records are read back one part after the other. -/
theorem reread_append (records more : List Record) :
    reread (records ++ more) = reread records ++ reread more := List.map_append

/-- Only a load changes whether the store has been read. -/
theorem seenAfter_of_ne (h : u ≠ .load) : l.seenAfter seen u = seen := by
  cases u with
  | load => exact absurd rfl h
  | _ => rfl

/-- The beginning of the list is lost only to what replaces the list and begins otherwise. -/
theorem Does.prefix_lines_iff (h : Does l lines u records lines')
    (hlines : base <+: lines.map Record.ofText) (hseen : seen = true → base <+: reread l.records) :
    base <+: lines'.map Record.ofText ↔
      ∀ records ∈ l.replacement? u, seen = true ∨ base <+: records := by
  cases h with
  | loaded _ => exact iff_of_true hlines (by simp [replacement?])
  | blinded _ => exact iff_of_true hlines (by simp [replacement?])
  | added r hnone =>
    rw [List.map_append]
    exact iff_of_true (hlines.trans (List.prefix_append _ _)) (by simp [hnone])
  | missed r hnone => exact iff_of_true hlines (by simp [hnone])
  | failed hnone => exact iff_of_true hlines (by simp [hnone])
  | replaced more hu hreplaced =>
    rw [map_ofText_text, hreplaced]
    constructor
    · intro hprefix records hrecords
      rw [← Option.some.inj hrecords]
      exact .inr hprefix
    · intro hsafe
      rcases hsafe _ rfl with hyes | hprefix
      · rw [reread_append]
        exact (hseen hyes).trans (List.prefix_append _ _)
      · exact hprefix

/-- A ledger whose load has read the list shows the beginning of the list. -/
theorem Does.prefix_records (h : Does l lines u records lines')
    (hlines : base <+: lines.map Record.ofText) (hseen : seen = true → base <+: reread l.records) :
    l.seenAfter seen u = true → base <+: reread records := by
  have hmore (more : List Record) (hyes : seen = true) : base <+: reread (l.records ++ more) := by
    rw [reread_append]
    exact (hseen hyes).trans (List.prefix_append _ _)
  cases h with
  | loaded _ =>
    rw [reread_map_ofText]
    exact fun _ => hlines
  | blinded hreads =>
    intro hafter
    rw [seenAfter, hreads] at hafter
    cases hafter
  | added r _ => exact hmore [r]
  | missed r _ => exact hmore [r]
  | failed _ => exact hseen
  | replaced more hu _ =>
    rw [seenAfter_of_ne hu]
    exact hmore more

/-- What is saved is lost only to what replaces the list after a load that has failed. -/
theorem Does.sublist (h : Does l lines u records lines')
    (hseen : seen = true → (lines.map Record.ofText).Sublist (reread l.records))
    (hsafe : ∀ records ∈ l.replacement? u, seen = true) :
    (lines.map Record.ofText).Sublist (lines'.map Record.ofText) ∧
      (l.seenAfter seen u = true → (lines'.map Record.ofText).Sublist (reread records)) := by
  cases h with
  | loaded _ =>
    rw [reread_map_ofText]
    exact ⟨.refl _, fun _ => .refl _⟩
  | blinded hreads =>
    refine ⟨.refl _, fun hafter => ?_⟩
    rw [seenAfter, hreads] at hafter
    cases hafter
  | added r _ =>
    rw [List.map_append, reread_append]
    exact ⟨List.sublist_append_left _ _, fun hyes => (hseen hyes).append (.refl _)⟩
  | missed r _ =>
    rw [reread_append]
    exact ⟨.refl _, fun hyes => (hseen hyes).trans (List.sublist_append_left _ _)⟩
  | failed _ => exact ⟨.refl _, hseen⟩
  | replaced more hu hreplaced =>
    have hyes : seen = true := hsafe _ hreplaced
    rw [map_ofText_text, reread_append]
    exact ⟨(hseen hyes).trans (List.sublist_append_left _ _), fun _ => .refl _⟩

end

end Ledger

/-! ## All uses -/

variable [Traceless σ]

open Traceless (kept)

/-- The store keeps a list of lines. -/
def Keeps (store : σ) (lines : List String) : Prop :=
  ∃ text, kept store = some text ∧ StringList.decode? text = some lines

/-- The store keeps a list that begins with lines for the same records. -/
def Begins (lines : List String) (store : σ) : Prop :=
  ∃ lines', Keeps store lines' ∧ lines.map Record.ofText <+: lines'.map Record.ofText

/-- The records of the lines that a store keeps. -/
theorem Keeps.shown {store : σ} {lines : List String} (h : Keeps store lines) :
    History.shown (kept store) = lines.map Record.ofText := by
  obtain ⟨text, hkept, hlines⟩ := h
  rw [hkept, History.shown, hlines]
  rfl

/-- Reading a list leaves it, and answers it or fails. -/
theorem Keeps.readLines {store : σ} {lines : List String} (h : Keeps store lines) :
    Keeps (readLines store).2 lines ∧
      ∀ lines', (History.readLines store).1 = .ok lines' → lines' = lines := by
  obtain ⟨text, hkept, hlines⟩ := h
  refine ⟨⟨text, (readLines_spec store).1.trans hkept, hlines⟩, fun lines' hread => ?_⟩
  have heq {text? : Option String} (hok : (Store.read store storeKey).1 = .ok text?) :
      text? = some text := (Traceless.eq_kept_of_read hok).trans hkept
  rw [History.readLines] at hread
  rcases hanswer : Store.read store storeKey with ⟨fault | _ | text', store'⟩
  · rw [hanswer] at hread
    cases hread
  · rw [hanswer] at heq
    cases heq rfl
  · rw [hanswer] at heq hread
    cases heq rfl
    simp only [hlines] at hread
    cases hread
    rfl

/-- What is written is kept, and a failed write leaves what was kept. -/
theorem Keeps.writeLines {store : σ} {lines : List String} (h : Keeps store lines)
    (lines' : List String) :
    Keeps (writeLines store lines').2
      (if (History.writeLines store lines').1.isOk then lines' else lines) := by
  rcases hanswer : (History.writeLines store lines').1 with fault | _
  · have hkept : kept (History.writeLines store lines').2 = kept store :=
      Traceless.kept_write_of_error hanswer
    obtain ⟨text, htext, hlines⟩ := h
    exact ⟨text, hkept.trans htext, hlines⟩
  · exact ⟨_, Traceless.kept_write hanswer, StringList.decode?_encode lines'⟩

namespace Ledger

variable {l : Ledger σ} {lines : List String}

/-- Loading leaves the list, and shows it where it can be read. -/
theorem keeps_load {store : σ} (h : Keeps store lines) :
    Keeps (load store).store lines ∧
      (load store).records = if reads store then lines.map Record.ofText else [] := by
  obtain ⟨text, hkept, htext⟩ := h
  refine ⟨⟨text, (kept_load store).trans hkept, htext⟩, ?_⟩
  have hlines := (Keeps.readLines ⟨text, hkept, htext⟩).2
  rw [load, reads]
  rcases hanswer : readLines store with ⟨fault | lines', store'⟩
  · rfl
  · rw [hlines lines' (by rw [hanswer])]
    rfl

/-- Writing everything leaves the lines of what is shown, or fails and leaves what was kept. -/
theorem keeps_persist (h : Keeps l.store lines) :
    Keeps l.persist.2.store
      (if l.persist.1.isOk then l.records.map Record.text else lines) :=
  h.writeLines (l.records.map Record.text)

/-- A use of a ledger over a list leaves a list, and does one of those things. -/
theorem exists_does (h : Keeps l.store lines) (u : Use) :
    ∃ lines', Keeps (l.use u).store lines' ∧ Does l lines u (l.use u).records lines' := by
  obtain ⟨hread, hlines⟩ := h.readLines
  cases u with
  | load =>
    obtain ⟨hkeeps, hrecords⟩ := keeps_load h
    refine ⟨lines, hkeeps, ?_⟩
    show Does l lines .load (load l.store).records lines
    rw [hrecords]
    cases hreads : reads l.store with
    | false => exact .blinded hreads
    | true => exact .loaded hreads
  | persist =>
    refine ⟨_, keeps_persist h, ?_⟩
    show Does l lines .persist l.records _
    cases hok : l.persist.1.isOk with
    | false => exact .failed (by rw [replacement?, hok]; rfl)
    | true =>
      have hreplaced : Does l lines .persist (l.records ++ [])
          ((l.records ++ []).map Record.text) :=
        .replaced [] (by simp) (by simp [replacement?, hok])
      simpa using hreplaced
  | append r =>
    have hrecords : (l.use (.append r)).records = l.records ++ [r] := records_append l r
    rw [hrecords]
    show ∃ lines', Keeps (l.append r).2.store lines' ∧ _
    rw [append]
    rcases hanswer : readLines l.store with ⟨fault | lines', store⟩
    · rw [hanswer] at hread
      cases fault with
      | corrupt =>
        -- What cannot be decoded is replaced by everything shown; this is how `append` repairs it.
        let shown : Ledger σ := { records := l.records ++ [r], store }
        refine ⟨_, keeps_persist (l := shown) hread, ?_⟩
        cases hok : shown.persist.1.isOk with
        | false =>
          refine .missed r ?_
          simp only [replacement?, hanswer]
          exact if_neg (by simp [shown, hok])
        | true =>
          refine .replaced [r] (by simp) ?_
          simp only [replacement?, hanswer]
          exact if_pos hok
      | file cause => exact ⟨lines, hread, .missed r (by simp only [replacement?, hanswer])⟩
      | unavailable reason =>
        exact ⟨lines, hread, .missed r (by simp only [replacement?, hanswer])⟩
    · rw [hanswer] at hread
      have hnone : l.replacement? (.append r) = none := by simp only [replacement?, hanswer]
      rw [hlines lines' (by rw [hanswer])]
      refine ⟨_, hread.writeLines (lines ++ [r.text]), ?_⟩
      split
      · exact .added r hnone
      · exact .missed r hnone

/-- What a store begins with is read off the list that it keeps. -/
theorem begins_iff_of_keeps {store : σ} {base : List String} (h : Keeps store lines) :
    Begins base store ↔ base.map Record.ofText <+: lines.map Record.ofText := by
  constructor
  · rintro ⟨lines', hkeeps, hprefix⟩
    rwa [← h.shown, hkeeps.shown]
  · exact fun hprefix => ⟨lines, h, hprefix⟩

/-- A list keeps its beginning exactly where what replaces it blindly begins so as well. -/
theorem begins_useAll_iff {base : List String} {seen : Bool} (h : Keeps l.store lines)
    (hlines : base.map Record.ofText <+: lines.map Record.ofText)
    (hseen : seen = true → base.map Record.ofText <+: reread l.records) (uses : List Use) :
    (∀ before after, uses = before ++ after → Begins base (l.useAll before).store) ↔
      ReplacesBlindly (base.map Record.ofText <+: ·) seen l uses := by
  -- The step compares the list after one use with its start; the rest follows as long as that
  -- list still begins so, and fails at once where it does not.
  induction uses generalizing l lines seen with
  | nil =>
    refine iff_of_true (fun before after huses => ?_) trivial
    obtain ⟨rfl, -⟩ := List.append_eq_nil_iff.1 huses.symm
    exact ⟨lines, h, hlines⟩
  | cons u uses ih =>
    obtain ⟨lines', hkeeps, hdoes⟩ := exists_does h u
    have hstep := hdoes.prefix_lines_iff hlines hseen
    have hrest (hlines' : base.map Record.ofText <+: lines'.map Record.ofText) :=
      ih hkeeps hlines' (hdoes.prefix_records hlines hseen)
    constructor
    · intro hall
      have hlines' := (begins_iff_of_keeps hkeeps).1 (hall [u] uses rfl)
      refine ⟨hstep.1 hlines', (hrest hlines').1 fun before after huses => ?_⟩
      exact hall (u :: before) after (by rw [huses, List.cons_append])
    · rintro ⟨hnow, hlater⟩ before after huses
      cases before with
      | nil => exact ⟨lines, h, hlines⟩
      | cons v before =>
        obtain ⟨rfl, hbehind⟩ := List.cons.inj huses
        exact (hrest (hstep.2 hnow)).2 hlater before after hbehind

/-- Where nothing is replaced blindly, what is saved stays saved, and so it goes on. -/
theorem exists_keeps_useAll {seen : Bool} (h : Keeps l.store lines)
    (hseen : seen = true → (lines.map Record.ofText).Sublist (reread l.records))
    {before rest : List Use} (hsafe : ReplacesBlindly (fun _ => False) seen l (before ++ rest)) :
    ∃ lines' seen', Keeps (l.useAll before).store lines' ∧
      (lines.map Record.ofText).Sublist (lines'.map Record.ofText) ∧
      (seen' = true → (lines'.map Record.ofText).Sublist (reread (l.useAll before).records)) ∧
      ReplacesBlindly (fun _ => False) seen' (l.useAll before) rest := by
  induction before generalizing l lines seen with
  | nil => exact ⟨lines, seen, h, .refl _, hseen, hsafe⟩
  | cons u before ih =>
    obtain ⟨lines₁, hkeeps₁, hdoes⟩ := exists_does h u
    have hnow : ∀ records ∈ l.replacement? u, seen = true :=
      fun records hrecords => (hsafe.1 records hrecords).resolve_right id
    obtain ⟨hsub, hseen₁⟩ := hdoes.sublist hseen hnow
    obtain ⟨lines', seen', hkeeps, hsub', hrest⟩ := ih hkeeps₁ hseen₁ hsafe.2
    exact ⟨lines', seen', hkeeps, hsub.trans hsub', hrest⟩

/--
However reads and writes fail, the list that a store keeps begins with the same records at every
moment, exactly if whatever replaces it after a load that has failed begins with them too. If such a
ledger is never written over the list, then no record that is saved at any moment is lost later.
-/
theorem begins_throughout_iff {store : σ} (h : Keeps store lines) (uses : List Use) :
    ((∀ before after, uses = before ++ after →
        Begins lines ((load store).useAll before).store) ↔
      ReplacesBlindly (lines.map Record.ofText <+: ·) (reads store) (load store) uses) ∧
    (ReplacesBlindly (fun _ => False) (reads store) (load store) uses →
      ∀ before between after, uses = before ++ (between ++ after) →
        (shown (kept ((load store).useAll before).store)).Sublist
          (shown (kept ((load store).useAll (before ++ between)).store))) := by
  obtain ⟨hkeeps, hrecords⟩ := keeps_load h
  have hseen (hreads : reads store = true) :
      reread (load store).records = lines.map Record.ofText := by
    rw [hrecords, if_pos hreads, reread_map_ofText]
  refine ⟨begins_useAll_iff hkeeps (List.prefix_refl _) (fun hreads => by simp [hseen hreads]) uses,
    ?_⟩
  · rintro hsafe before between after rfl
    have hsub (hreads : reads store = true) :
        (lines.map Record.ofText).Sublist (reread (load store).records) := by
      simp [hseen hreads]
    obtain ⟨lines₁, seen₁, hkeeps₁, -, hseen₁, hrest⟩ := exists_keeps_useAll hkeeps hsub hsafe
    obtain ⟨lines₂, -, hkeeps₂, hsub, -⟩ := exists_keeps_useAll hkeeps₁ hseen₁ hrest
    have hrun : (load store).useAll (before ++ between) =
        ((load store).useAll before).useAll between := List.foldl_append
    rw [hrun, hkeeps₁.shown, hkeeps₂.shown]
    exact hsub

/-- A list whose adding fails once still begins with its two records, and everything is saved. -/
theorem begins_throughout_after_failed_write :
    let store : Unreliable MemoryStore :=
      { store := { values := [(storeKey, "[\"1+1 = 2\",\"memo\"]")] }
        schedule := fun n => if n = 2 then some (.unavailable "quota") else none }
    let uses : List Use := [.append ⟨"2×3", "6"⟩, .append ⟨"π", "3.1415926536"⟩, .persist]
    Keeps store ["1+1 = 2", "memo"] ∧
      Begins ["1+1 = 2", "memo"] ((load store).useAll uses).store ∧
      shown (kept ((load store).useAll uses).store) =
        [⟨"1+1", "2"⟩, ⟨"memo", ""⟩, ⟨"2×3", "6"⟩, ⟨"π", "3.1415926536"⟩] := by
  intro store uses
  have hkeeps : Keeps store ["1+1 = 2", "memo"] := ⟨_, rfl, by decide +kernel⟩
  refine ⟨hkeeps, ?_, by decide +kernel⟩
  refine (begins_throughout_iff hkeeps uses).1.2 ?_ uses [] (List.append_nil uses).symm
  have hreads : reads store = true := by decide +kernel
  rw [hreads]
  exact ⟨fun _ _ => .inl rfl, fun _ _ => .inl rfl, fun _ _ => .inl rfl, trivial⟩

/-- Written again after a load that has failed, a ledger erases the record that was saved. -/
theorem begins_lost_after_unread_load :
    let store : Unreliable MemoryStore :=
      { store := { values := [(storeKey, "[\"ancien = 1\"]")] }
        schedule := fun n => if n = 0 then some (.unavailable "lecture") else none }
    Keeps store ["ancien = 1"] ∧ (load store).persist.1 = .ok () ∧
      ¬Begins ["ancien = 1"] ((load store).useAll [.persist]).store := by
  intro store
  refine ⟨⟨_, rfl, by decide +kernel⟩, rfl, ?_⟩
  have hempty : Keeps ((load store).useAll [.persist]).store [] := ⟨"[]", rfl, by decide +kernel⟩
  rw [begins_iff_of_keeps hempty]
  simp

end Ledger

end

end SciCalc.History
