/-!
# Stores

A store keeps texts under keys. Any operation may fail, and it answers with the store as it is
afterwards, so that a failure that leaves a trace can be told from one that does not.
-/

set_option autoImplicit false

namespace SciCalc

/-- Why a file cannot be used. -/
inductive FileFault where
  /-- The file holds bytes that are no text. -/
  | notText
  /-- The file would lie in a folder that does not exist. -/
  | noSuchFolder
  /-- The file would lie below another file. -/
  | notFolder
  | nameTooLong
  /-- The name contains a zero character. -/
  | invalidName
deriving DecidableEq, Repr

/-- Why a store operation fails. -/
inductive StoreFault where
  | file (cause : FileFault)
  /-- The stored text is not of the expected form. -/
  | corrupt
  | unavailable (reason : String)
deriving DecidableEq, Repr

/-- The wording of a file fault. -/
def FileFault.message : FileFault → String
  | notText => "stream did not contain valid UTF-8"
  | noSuchFolder => "No such file or directory"
  | notFolder => "Not a directory"
  | nameTooLong => "File name too long"
  | invalidName => "file name contained an unexpected NUL byte"

/-- The full text of a store fault. -/
def StoreFault.message : StoreFault → String
  | file cause => "E/S : " ++ cause.message
  | corrupt => "JSON : contenu illisible"
  | unavailable reason => "stockage indisponible : " ++ reason

/-- A store of texts: what each operation answers, and the store it leaves. -/
class Store (σ : Type) where
  /-- The text under a key, if there is one. -/
  read : σ → String → Except StoreFault (Option String) × σ
  /-- Puts a text under a key. -/
  write : σ → String → String → Except StoreFault Unit × σ
  /-- Removes a key; that it is absent is no fault. -/
  erase : σ → String → Except StoreFault Unit × σ

end SciCalc
