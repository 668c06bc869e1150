import SciCalc.Named
import SciCalc.Store

/-!
# The folder store

A store in one folder: the text under a key `k` is the file `k.json`. The folder is made by the
first write. The store makes no folders inside it, so a key with a slash names a file that cannot be
made; below an existing file it is refused altogether.
-/

set_option autoImplicit false

namespace SciCalc

/-- A folder and the bytes of its files; it may not exist yet. -/
structure FolderStore where
  files : Option (Named ByteArray) := none

namespace FolderStore

/-- The longest file name, in bytes of its UTF-8 form. -/
def longestName : Nat := 255

/-- The name of the file of a key. -/
def fileName (key : String) : String := key ++ ".json"

/-- The parts of a path between its slashes. -/
def components : List Char → List (List Char)
  | [] => [[]]
  | '/' :: cs => [] :: components cs
  | c :: cs =>
    match components cs with
    | first :: rest => (c :: first) :: rest
    | [] => [[c]]

/-- Where a path leads. -/
inductive Location where
  | file (name : String)
  /-- Below a folder that does not exist. -/
  | missing
  | refused (cause : FileFault)

/-- Follows the components of a path from the folder. -/
def follow (files : Named ByteArray) : List String → Location
  | [] => .missing
  | [name] => if longestName < name.utf8ByteSize then .refused .nameTooLong else .file name
  | part :: rest =>
    if part = "" ∨ part = "." then follow files rest
    else if longestName < part.utf8ByteSize then .refused .nameTooLong
    else if (files.get? part).isSome then .refused .notFolder
    else .missing

/-- Where the file of a key lies, among the files of the folder. -/
def locate (files : Named ByteArray) (key : String) : Location :=
  follow files ((components (fileName key).toList).map String.ofList)

/-- Whether a key can name no file whatever the folder holds. -/
def isInvalidKey (key : String) : Bool := key.toList.contains '\x00'

/-- The text of a file. -/
def textOf (bytes : ByteArray) : Except StoreFault (Option String) :=
  match String.fromUTF8? bytes with
  | some text => .ok (some text)
  | none => .error (.file .notText)

/-- The text under a key; what does not exist is absent. -/
def read (s : FolderStore) (key : String) : Except StoreFault (Option String) :=
  if isInvalidKey key then .error (.file .invalidName)
  else match s.files with
    | none => .ok none
    | some files =>
      match locate files key with
      | .missing => .ok none
      | .refused cause => .error (.file cause)
      | .file name =>
        match files.get? name with
        | none => .ok none
        | some bytes => textOf bytes

/-- Puts bytes into the file of a key; the folder is made first, also when the file is refused. -/
def writeBytes (s : FolderStore) (key : String) (bytes : ByteArray) :
    Except StoreFault Unit × FolderStore :=
  let files := s.files.getD []
  let made : FolderStore := { files := some files }
  if isInvalidKey key then (.error (.file .invalidName), made)
  else match locate files key with
    | .missing => (.error (.file .noSuchFolder), made)
    | .refused cause => (.error (.file cause), made)
    | .file name => (.ok (), { files := some (files.put name bytes) })

/-- Removes the file of a key. -/
def erase (s : FolderStore) (key : String) : Except StoreFault Unit × FolderStore :=
  if isInvalidKey key then (.error (.file .invalidName), s)
  else match s.files with
    | none => (.ok (), s)
    | some files =>
      match locate files key with
      | .missing => (.ok (), s)
      | .refused cause => (.error (.file cause), s)
      | .file name => (.ok (), { files := some (files.erase name) })

end FolderStore

/-- A folder keeps the text of a key in the file of that name. -/
instance : Store FolderStore where
  read s key := (s.read key, s)
  write s key text := s.writeBytes key text.toUTF8
  erase s key := s.erase key

end SciCalc
