import LabelFlow.Json.Library

/-!
# Configuration

The only setting is the least number of characters of an input name. A configuration is saved as a
JSON record with the field `minInputNameLen`, which may be left out.
-/

set_option autoImplicit false

namespace LabelFlow

/-- Settings of the validator. -/
structure Config where
  minNameLength : Nat
deriving DecidableEq, Repr

/-- Why a configuration is refused: its text is not readable, or a shortest name of no characters is
asked for. -/
inductive ConfigError
  | unreadable
  | zeroNameLength
deriving DecidableEq, Repr

/-- The wording of a refusal. What is wrong with an unreadable text is left open. -/
def ConfigError.message : ConfigError → String
  | .unreadable => "invalid validator config JSON: "
  | .zeroNameLength => "invalid minInputNameLen: must be at least 1"

namespace Config

/-- Names of one character will do. -/
def default : Config := ⟨1⟩

/-- Names have at least two characters, as in the editor's former grammar. -/
def twoCharacters : Config := ⟨2⟩

/-- Refuses settings out of range. -/
def check (c : Config) : Except ConfigError Config :=
  if c.minNameLength = 0 then .error .zeroNameLength else .ok c

/-! ## Loading -/

/-- The fields of a saved configuration. -/
def fields : List Json.Field := [⟨"minInputNameLen", .anywhere⟩]

/-- Reads a saved configuration. -/
def ofJson? (j : Json.Library) (v : Json) : Option Config :=
  match j.fields fields v with
  | some [minNameLength] =>
    (Json.withDefault? default.minNameLength j.natural minNameLength).map Config.mk
  | _ => none

/-- Loads a configuration and checks it. -/
def ofSaved (j : Json.Library) (text : String) : Except ConfigError Config :=
  match j.read text >>= ofJson? j with
  | none => .error .unreadable
  | some config => config.check

end Config

end LabelFlow
