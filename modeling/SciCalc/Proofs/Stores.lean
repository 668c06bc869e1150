import SciCalc.History.Ledger
import SciCalc.Store.Folder
import SciCalc.Store.Memory

/-!
# Stores that fail without a trace

What the history may count on in a store: a read that works answers the text that is kept, a write
or an erasure that works replaces or removes it, and an operation that fails leaves it. The stores
of the program keep to that, and so does any of them once its operations fail on a schedule.
-/

set_option autoImplicit false

namespace SciCalc.History

/-- A store whose operations fail without a trace at the key of the history. -/
class Traceless (σ : Type) [Store σ] where
  /-- The text under the key. -/
  kept : σ → Option String
  kept_read (store : σ) : kept (Store.read store storeKey).2 = kept store
  eq_kept_of_read {store : σ} {text? : Option String} :
    (Store.read store storeKey).1 = .ok text? → text? = kept store
  kept_write {store : σ} {text : String} :
    (Store.write store storeKey text).1 = .ok () →
      kept (Store.write store storeKey text).2 = some text
  kept_write_of_error {store : σ} {text : String} {fault : StoreFault} :
    (Store.write store storeKey text).1 = .error fault →
      kept (Store.write store storeKey text).2 = kept store
  kept_erase {store : σ} :
    (Store.erase store storeKey).1 = .ok () → kept (Store.erase store storeKey).2 = none
  kept_erase_of_error {store : σ} {fault : StoreFault} :
    (Store.erase store storeKey).1 = .error fault →
      kept (Store.erase store storeKey).2 = kept store

/-- Nothing in a memory store fails. -/
instance : Traceless MemoryStore where
  kept s := s.values.get? storeKey
  kept_read _ := rfl
  eq_kept_of_read h := (Except.ok.inj h).symm
  kept_write _ := Named.get?_put ..
  kept_write_of_error h := by cases h
  kept_erase _ := Named.get?_erase ..
  kept_erase_of_error h := by cases h

/-! ## The folder store -/

/-- The history lies in one file of the folder. -/
theorem locate_storeKey (files : Named ByteArray) :
    FolderStore.locate files storeKey = .file "calcHistory.json" := by
  have hparts : (FolderStore.components (FolderStore.fileName storeKey).toList).map String.ofList =
      ["calcHistory.json"] := by decide +kernel
  rw [FolderStore.locate, hparts]
  rfl

/-- The text under the key of the history, if the folder has one. -/
def folderText (s : FolderStore) : Option String :=
  match s.read storeKey with
  | .ok text? => text?
  | .error _ => none

/-- What a text is stored as is read as that text. -/
theorem textOf_toUTF8 (text : String) : FolderStore.textOf text.toUTF8 = .ok (some text) := by
  have hvalid : String.fromUTF8? text.toUTF8 = some text := by
    simp [String.fromUTF8?, String.fromUTF8, text.isValidUTF8]
  rw [FolderStore.textOf, hvalid]

/-- The key of the history is valid. -/
theorem isInvalidKey_storeKey : FolderStore.isInvalidKey storeKey = false := by decide +kernel

/-- A write puts the bytes into the file of the history. -/
theorem writeBytes_storeKey (s : FolderStore) (bytes : ByteArray) :
    s.writeBytes storeKey bytes =
      (.ok (), { files := some ((s.files.getD []).put "calcHistory.json" bytes) }) := by
  rw [FolderStore.writeBytes, isInvalidKey_storeKey, locate_storeKey]
  rfl

/-- The file of the history is read from a folder that has it. -/
theorem read_storeKey (files : Named ByteArray) :
    FolderStore.read { files := some files } storeKey =
      match files.get? "calcHistory.json" with
      | none => .ok none
      | some bytes => FolderStore.textOf bytes := by
  cases hfile : files.get? "calcHistory.json" with
  | none => simp [FolderStore.read, isInvalidKey_storeKey, locate_storeKey, hfile]
  | some bytes => simp [FolderStore.read, isInvalidKey_storeKey, locate_storeKey, hfile]

/-- An erasure removes the file of the history. -/
theorem erase_storeKey (s : FolderStore) :
    (s.erase storeKey).1 = .ok () ∧ folderText (s.erase storeKey).2 = none := by
  rw [FolderStore.erase, isInvalidKey_storeKey]
  rcases hfiles : s.files with _ | files
  · refine ⟨rfl, ?_⟩
    simp [folderText, FolderStore.read, isInvalidKey_storeKey, hfiles]
  · simp [locate_storeKey, folderText, read_storeKey]

/-- In a folder only a read of the history can fail. -/
instance : Traceless FolderStore where
  kept := folderText
  kept_read _ := rfl
  eq_kept_of_read {store text?} h := by
    have hread : store.read storeKey = .ok text? := h
    rw [folderText, hread]
  kept_write {store text} _ := by
    have hwrite : (Store.write store storeKey text).2 =
        { files := some ((store.files.getD []).put "calcHistory.json" text.toUTF8) } := by
      show (store.writeBytes storeKey text.toUTF8).2 = _
      rw [writeBytes_storeKey]
    rw [hwrite, folderText, read_storeKey, Named.get?_put]
    simp only [textOf_toUTF8]
  kept_write_of_error {store text fault} h := by
    have hwrite : (store.writeBytes storeKey text.toUTF8).1 = .error fault := h
    rw [writeBytes_storeKey] at hwrite
    cases hwrite
  kept_erase {store} _ := (erase_storeKey store).2
  kept_erase_of_error {store fault} h := by
    have herase : (store.erase storeKey).1 = .error fault := h
    rw [(erase_storeKey store).1] at herase
    cases herase

/-! ## Stores made to fail -/

/-- A store each of whose operations may fail, as a schedule says. -/
structure Unreliable (σ : Type) where
  store : σ
  /-- The fault of each operation, counted from the first one; `none` lets it through. -/
  schedule : Nat → Option StoreFault
  /-- How many operations there have been. -/
  clock : Nat := 0

namespace Unreliable

variable {σ : Type}

/-- The answer of the store, or the fault that the schedule has for this operation. -/
def attempt {α : Type} (s : Unreliable σ) (operation : σ → Except StoreFault α × σ) :
    Except StoreFault α × Unreliable σ :=
  match s.schedule s.clock with
  | some fault => (.error fault, { s with clock := s.clock + 1 })
  | none =>
    ((operation s.store).1, { s with store := (operation s.store).2, clock := s.clock + 1 })

/-- An operation that works is one of the store, and it leaves what that leaves. -/
theorem attempt_of_ok {α : Type} {s : Unreliable σ} {operation : σ → Except StoreFault α × σ}
    {answer : α} (h : (s.attempt operation).1 = .ok answer) :
    (operation s.store).1 = .ok answer ∧ (s.attempt operation).2.store = (operation s.store).2 := by
  rw [attempt] at h ⊢
  cases hfault : s.schedule s.clock with
  | some fault =>
    rw [hfault] at h
    cases h
  | none =>
    rw [hfault] at h
    exact ⟨h, rfl⟩

/-- An operation that fails leaves the store, or what the failing store leaves. -/
theorem attempt_of_error {α : Type} {s : Unreliable σ} {operation : σ → Except StoreFault α × σ}
    {fault : StoreFault} (h : (s.attempt operation).1 = .error fault) :
    (s.attempt operation).2.store = s.store ∨
      (operation s.store).1 = .error fault ∧
        (s.attempt operation).2.store = (operation s.store).2 := by
  rw [attempt] at h ⊢
  cases hfault : s.schedule s.clock with
  | some _ => exact .inl rfl
  | none =>
    rw [hfault] at h
    exact .inr ⟨h, rfl⟩

variable [Store σ]

/-- Each operation is let through or fails as the schedule says. -/
instance : Store (Unreliable σ) where
  read s key := s.attempt (Store.read · key)
  write s key text := s.attempt (Store.write · key text)
  erase s key := s.attempt (Store.erase · key)

variable [Traceless σ]

/-- An unreliable store fails without a trace if the store behind it does. -/
instance : Traceless (Unreliable σ) where
  kept s := Traceless.kept s.store
  kept_read s := by
    simp only [Store.read, attempt]
    cases s.schedule s.clock with
    | some fault => rfl
    | none => exact Traceless.kept_read s.store
  eq_kept_of_read h := Traceless.eq_kept_of_read (attempt_of_ok h).1
  kept_write {s text} h := by
    obtain ⟨hwrite, hstore⟩ := attempt_of_ok h
    exact (congrArg Traceless.kept hstore).trans (Traceless.kept_write hwrite)
  kept_write_of_error {s text fault} h := by
    rcases attempt_of_error h with hstore | ⟨hwrite, hstore⟩
    · exact congrArg Traceless.kept hstore
    · exact (congrArg Traceless.kept hstore).trans (Traceless.kept_write_of_error hwrite)
  kept_erase {s} h := by
    obtain ⟨herase, hstore⟩ := attempt_of_ok h
    exact (congrArg Traceless.kept hstore).trans (Traceless.kept_erase herase)
  kept_erase_of_error {s fault} h := by
    rcases attempt_of_error h with hstore | ⟨herase, hstore⟩
    · exact congrArg Traceless.kept hstore
    · exact (congrArg Traceless.kept hstore).trans (Traceless.kept_erase_of_error herase)

end Unreliable

end SciCalc.History
