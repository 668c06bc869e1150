import SciCalc.App
import SciCalc.Proofs.Records
import SciCalc.Proofs.Stores
import SciCalc.Proofs.StringLists

/-!
# The ledger and its store

Without an alert the ledger shows what loading its store would show. The two are kept apart, and
adding a record takes the list that is stored, not the one that is shown; so the agreement is
carried from action to action, together with the fact that every record shown can be read back from
its line. A failed operation raises the alert, and whatever lowers it writes the store anew.
-/

set_option autoImplicit false

namespace SciCalc

namespace History

/-- The records that a stored text shows. -/
def shown : Option String → List Record
  | none => []
  | some text => ((StringList.decode? text).getD []).map Record.ofText

/-- The lines of records that can be read back show those records. -/
theorem shown_encode {records : List Record} (h : ∀ r ∈ records, r.Stable) :
    shown (some (StringList.encode (records.map Record.text))) = records := by
  rw [shown, StringList.decode?_encode, Option.getD_some, List.map_map]
  exact (List.map_congr_left h).trans (List.map_id records)

section

variable {σ : Type} [Store σ]

namespace Ledger

/-- Every record of a loaded ledger can be read back. -/
theorem stable_load (store : σ) : ∀ r ∈ (load store).records, r.Stable := by
  intro r hr
  rw [load] at hr
  rcases hlines : readLines store with ⟨fault | lines, store'⟩
  · rw [hlines] at hr
    cases hr
  · rw [hlines] at hr
    obtain ⟨line, -, rfl⟩ := List.mem_map.1 hr
    exact Record.stable_ofText line

/-- Writing all records changes none. -/
theorem records_persist (l : Ledger σ) : l.persist.2.records = l.records := rfl

/-- A record is shown whatever the store does. -/
theorem records_append (l : Ledger σ) (r : Record) :
    (l.append r).2.records = l.records ++ [r] := by
  rw [append]
  rcases readLines l.store with ⟨fault | lines, store⟩
  · cases fault <;> rfl
  · rfl

end Ledger

variable [Traceless σ]

open Traceless (kept)

/-- Reading the lines leaves the store's text, and the lines are those the text shows. -/
theorem readLines_spec (store : σ) :
    kept (readLines store).2 = kept store ∧
      ∀ lines, (readLines store).1 = .ok lines → shown (kept store) = lines.map Record.ofText := by
  have hkept := Traceless.kept_read store
  have hread (text? : Option String) (h : (Store.read store storeKey).1 = .ok text?) :
      text? = kept store := Traceless.eq_kept_of_read h
  rw [readLines]
  rcases hanswer : Store.read store storeKey with ⟨fault | _ | text, store'⟩
  · rw [hanswer] at hkept
    exact ⟨hkept, fun lines h => by cases h⟩
  · rw [hanswer] at hkept hread
    refine ⟨hkept, fun lines h => ?_⟩
    cases h
    rw [← hread none rfl]
    rfl
  · rw [hanswer] at hkept hread
    simp only
    cases hdecode : StringList.decode? text with
    | none => exact ⟨hkept, fun lines h => by cases h⟩
    | some lines' =>
      refine ⟨hkept, fun lines h => ?_⟩
      cases h
      rw [← hread (some text) rfl, shown, hdecode]
      rfl

namespace Ledger

/-- A store that is read shows the records of its text. -/
theorem records_load {store : σ} {text? : Option String}
    (h : (Store.read store storeKey).1 = .ok text?) :
    (load store).records = shown (kept store) := by
  rw [← Traceless.eq_kept_of_read h, load, readLines]
  rcases hanswer : Store.read store storeKey with ⟨fault | _ | text, store'⟩
  · rw [hanswer] at h
    cases h
  · rw [hanswer] at h
    cases h
    rfl
  · rw [hanswer] at h
    cases h
    simp only [shown]
    cases StringList.decode? text with
    | none => rfl
    | some lines => rfl

/-- Loading leaves the text of the store. -/
theorem kept_load (store : σ) : kept (load store).store = kept store := by
  have hkept := (readLines_spec store).1
  rw [load]
  rcases hlines : readLines store with ⟨fault | lines, store'⟩
  · rw [hlines] at hkept
    exact hkept
  · rw [hlines] at hkept
    exact hkept

/-- The ledger shows what its store keeps. -/
def InStep (l : Ledger σ) : Prop := l.records = shown (kept l.store)

variable {l : Ledger σ}

/-- Once all records are written the store is in step. -/
theorem inStep_persist (hstable : ∀ r ∈ l.records, r.Stable) (hok : l.persist.1 = .ok ()) :
    l.persist.2.InStep := by
  have hkept : kept l.persist.2.store = some (StringList.encode (l.records.map Record.text)) :=
    Traceless.kept_write hok
  rw [InStep, hkept, shown_encode hstable, records_persist]

/-- A record that is stored leaves the store in step, if it was. -/
theorem inStep_append (hstable : ∀ r ∈ l.records, r.Stable) {r : Record} (hr : r.Stable)
    (hin : l.InStep) (hok : (l.append r).1 = .ok ()) : (l.append r).2.InStep := by
  have hall : ∀ r' ∈ l.records ++ [r], r'.Stable := by
    intro r' hmem
    rcases List.mem_append.1 hmem with hmem | hmem
    · exact hstable r' hmem
    · rwa [List.mem_singleton.1 hmem]
  obtain ⟨hkept, hlines⟩ := readLines_spec l.store
  rw [append] at hok ⊢
  rcases hread : readLines l.store with ⟨fault | lines, store⟩
  · rw [hread] at hok
    cases fault with
    | corrupt => exact inStep_persist (l := { records := l.records ++ [r], store }) hall hok
    | file cause => cases hok
    | unavailable reason => cases hok
  · rw [hread] at hok
    have hwritten : kept (writeLines store (lines ++ [r.text])).2 =
        some (StringList.encode (lines ++ [r.text])) := Traceless.kept_write hok
    have hshown : l.records = lines.map Record.ofText := by
      rw [hin, hlines lines (by rw [hread])]
    show l.records ++ [r] = shown (kept (writeLines store (lines ++ [r.text])).2)
    rw [hwritten, shown, StringList.decode?_encode, Option.getD_some, List.map_append, ← hshown,
      List.map_singleton, show Record.ofText r.text = r from hr]

/-- An emptied history is in step. -/
theorem inStep_clear (hok : l.clear.1 = .ok ()) : l.clear.2.InStep := by
  have hkept : kept l.clear.2.store = none := Traceless.kept_erase hok
  rw [InStep, hkept]
  rfl

end Ledger

end

end History

/-! ## The application -/

namespace App

open History

variable {σ : Type} [Store σ] [Traceless σ]

/-- All records can be read back, and without an alert the store is in step. -/
structure Sound (app : App σ) : Prop where
  stable : ∀ r ∈ app.ledger.records, r.Stable
  inStep : app.alert = none → app.ledger.InStep

/-- Another session makes no difference. -/
theorem Sound.of_ledger {app app' : App σ} (h : app.Sound) (hledger : app'.ledger = app.ledger)
    (halert : app'.alert = app.alert) : app'.Sound :=
  ⟨by rw [hledger]; exact h.stable, by rw [hledger, halert]; exact h.inStep⟩

/-- The application starts sound over a store that can be read. -/
theorem sound_start (session : Session) {store : σ} {text? : Option String}
    (h : (Store.read store storeKey).1 = .ok text?) : (start session store).Sound := by
  refine ⟨Ledger.stable_load store, fun _ => ?_⟩
  show (Ledger.load store).records = shown (Traceless.kept (Ledger.load store).store)
  rw [Ledger.kept_load, Ledger.records_load h]

/-- An operation that works lowers the alert, and one that fails raises it. -/
theorem sound_note {app : App σ} {outcome : Except StoreFault Unit × Ledger σ}
    (hstable : ∀ r ∈ outcome.2.records, r.Stable)
    (hin : outcome.1 = .ok () → outcome.2.InStep) : (app.note outcome).Sound := by
  rcases outcome with ⟨fault | _, ledger⟩
  · exact ⟨hstable, fun h => by cases h⟩
  · exact ⟨hstable, fun _ => hin rfl⟩

/-- Recording a calculation keeps the application sound. -/
theorem Sound.record {app : App σ} (h : app.Sound) (c : Calculation) : (app.record c).Sound := by
  have hstable : ∀ r ∈ (app.ledger.append (Record.ofCalculation c)).2.records, r.Stable := by
    rw [Ledger.records_append]
    intro r hr
    rcases List.mem_append.1 hr with hr | hr
    · exact h.stable r hr
    · rw [List.mem_singleton.1 hr]
      exact Record.stable_ofCalculation c
  have hin := fun halert => Ledger.inStep_append h.stable (Record.stable_ofCalculation c)
    (h.inStep halert)
  rw [App.record]
  rcases happend : app.ledger.append (Record.ofCalculation c) with ⟨fault | _, ledger⟩
  · rw [happend] at hstable
    exact sound_note hstable fun hok => by cases hok
  · rw [happend] at hstable hin
    simp only
    split
    · exact sound_note hstable fun hok => Ledger.inStep_persist hstable hok
    · next halert =>
      refine sound_note hstable fun _ => hin ?_ rfl
      simpa using halert

/-- Every action keeps the application sound. -/
theorem Sound.execute {app : App σ} (h : app.Sound) (a : Action) : (app.execute a).Sound := by
  rw [App.execute]
  rcases app.session.calculate? a with _ | ⟨fault | c, session⟩
  · simp only
    cases a with
    | clearHistory => exact sound_note (fun r hr => by cases hr) Ledger.inStep_clear
    | persistHistory => exact sound_note h.stable (Ledger.inStep_persist h.stable)
    | _ => exact h.of_ledger rfl rfl
  · exact h.of_ledger rfl rfl
  · have hsession : Sound { app with session } := h.of_ledger rfl rfl
    exact hsession.record c

/-- Every run keeps the application sound. -/
theorem Sound.executeAll {app : App σ} (h : app.Sound) (actions : List Action) :
    (app.executeAll actions).Sound := by
  induction actions generalizing app with
  | nil => exact h
  | cons a actions ih => exact ih (h.execute a)

/--
However the operations of the store fail on the way, an application that has no alert shows exactly
what loading its store shows, wherever the same text can be read.
-/
theorem records_eq_records_load (session : Session) {store : σ} {text? : Option String}
    (hread : (Store.read store storeKey).1 = .ok text?) (actions : List Action)
    (halert : ((start session store).executeAll actions).alert = none) {store' : σ}
    (hkept : Traceless.kept store' =
      Traceless.kept ((start session store).executeAll actions).ledger.store)
    {text'? : Option String} (hread' : (Store.read store' storeKey).1 = .ok text'?) :
    (Ledger.load store').records =
      ((start session store).executeAll actions).ledger.records := by
  have hsound := (sound_start session hread).executeAll actions
  rw [Ledger.records_load hread', hkept]
  exact (hsound.inStep halert).symm

/-- A write that fails and is made again leaves the two records of the store as they are shown. -/
theorem records_eq_records_load_after_failed_write :
    let store : Unreliable MemoryStore :=
      { store := { values := [(storeKey, "[\"1+1 = 2\",\"memo\"]")] }
        schedule := fun n => if n = 1 then some (.unavailable "quota") else none }
    let app := (start {} store).executeAll [.persistHistory, .persistHistory]
    let readable : Unreliable MemoryStore := { app.ledger.store with schedule := fun _ => none }
    app.alert = none ∧ app.ledger.records.length = 2 ∧
      (Ledger.load readable).records = app.ledger.records := by
  intro store app readable
  have hread : (Store.read store storeKey).1 = .ok (some "[\"1+1 = 2\",\"memo\"]") := rfl
  have halert : app.alert = none := rfl
  refine ⟨halert, by decide +kernel, ?_⟩
  exact records_eq_records_load {} hread [.persistHistory, .persistHistory] halert rfl rfl

end App

end SciCalc
