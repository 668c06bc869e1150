import SciCalc.Context
import SciCalc.Toml.Document

/-!
# Settings

The settings of a user, as a TOML text holds them. What is missing has a default and what is unknown
is ignored, but a value of the wrong type fails the whole text. Settings out of bounds are read as
they are and bounded where a context is made of them.
-/

set_option autoImplicit false

namespace SciCalc

/-- The settings of a user. -/
structure Settings where
  angles : AngleMode := .degrees
  places : Nat := 10
  zeroThreshold : Float := 1e-10
  snapsToUnit : Bool := true
  /-- The folder of the history, in place of that of the platform. -/
  dataFolder : Option String := none
deriving DecidableEq

/-- Why settings cannot be read. -/
inductive SettingsFault where
  /-- The file holds bytes that are no text. -/
  | notText
  /-- The text is no TOML or a value has the wrong type. -/
  | invalid
deriving DecidableEq

namespace Settings

open Toml

/-! ### Reading -/

/-- The name of an angle mode in a settings text. -/
def angleName : AngleMode → String
  | .degrees => "degre"
  | .radians => "radian"

/-- The angle mode of a name. -/
def anglesOfName? (name : String) : Option AngleMode :=
  if name = angleName .degrees then some .degrees
  else if name = angleName .radians then some .radians
  else none

/-- An angle mode: its name, or a table with that name as the key of an empty collection. -/
def angles? : Value → Option AngleMode
  | .string cs => anglesOfName? (String.ofList cs)
  | .table _ [(name, .table _ [])] => anglesOfName? name
  | .table _ [(name, .array [])] => anglesOfName? name
  | _ => none

/-- A count of decimal places, in 32 bits. -/
def places? : Value → Option Nat
  | .scalar (.integer n) => if 0 ≤ n ∧ n < Int.pow 2 32 then some n.toNat else none
  | _ => none

/-- A number; an integer of 64 bits stands for the number nearest to it. -/
def number? : Value → Option Float
  | .scalar (.float x) => some x
  | .scalar (.integer n) =>
    if -Int.pow 2 63 ≤ n ∧ n < Int.pow 2 64 then some (Binary64.nearest (n < 0) n.natAbs 1)
    else none
  | _ => none

/-- A boolean. -/
def boolean? : Value → Option Bool
  | .scalar (.boolean b) => some b
  | _ => none

/-- A string. -/
def string? : Value → Option String
  | .string cs => some (String.ofList cs)
  | _ => none

/-- The value of a key, its default where the key is absent, and nothing where it is unreadable. -/
def field {α : Type} (entries : Entries) (key : String) (read : Value → Option α) (default : α) :
    Option α :=
  match entries.get? key with
  | none => some default
  | some v => read v

/-- The settings in the tables of a text. -/
def ofEntries? (entries : Entries) : Option Settings := do
  let angles ← field entries "mode_angle" angles? .degrees
  let places ← field entries "decimales" places? 10
  let zeroThreshold ← field entries "seuil_zero" number? 1e-10
  let snapsToUnit ← field entries "aimanter_unite" boolean? true
  let dataFolder ← field entries "dossier_donnees" (fun v => (string? v).map some) none
  return { angles, places, zeroThreshold, snapsToUnit, dataFolder }

/-- Reads the settings of a text. -/
def ofText (text : String) : Except SettingsFault Settings :=
  match (Toml.ofText? text).bind ofEntries? with
  | some s => .ok s
  | none => .error .invalid

/-- Reads the settings of a file, which may be absent. -/
def ofFile (content : Option ByteArray) : Except SettingsFault Settings :=
  match content with
  | none => .ok {}
  | some bytes =>
    match String.fromUTF8? bytes with
    | none => .error .notText
    | some text => ofText text

/-- The settings of a file, or the defaults where it cannot be read. -/
def ofFileOrDefault (content : Option ByteArray) : Settings :=
  match ofFile content with
  | .ok s => s
  | .error _ => {}

/-! ### Use -/

/-- More decimal places than this say nothing about a number. -/
def mostPlaces : Nat := 15

/-- The rounding of results, within bounds. -/
def rounding (s : Settings) : Rounding where
  places := min s.places mostPlaces
  zeroThreshold :=
    if s.zeroThreshold.isFinite ∧ 0 < s.zeroThreshold then s.zeroThreshold else 1e-10
  snapsToUnit := s.snapsToUnit

/-- The context that a session starts in. -/
def context (s : Settings) : Context := { angles := s.angles, rounding := s.rounding }

/-- The name of the folder of the application. -/
def applicationFolder : String := "calculatrice-scientifique"

/-- The folder of the history, given the data folder of the platform. -/
def historyFolder (s : Settings) (platformFolder : String) : String :=
  s.dataFolder.getD (platformFolder ++ "/" ++ applicationFolder)

end Settings

end SciCalc
