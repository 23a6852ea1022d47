import LabelFlow.Json.Reader
import LabelFlow.Json.Record

/-!
# Libraries for JSON

What is saved and loaded is written and read by a library for JSON, which is a parameter
(`Json.Library`): it reads and writes texts, and it decodes a value as one of a simple type or as a
record. `Json.Library.builtIn` is the one that runs.
-/

set_option autoImplicit false

namespace LabelFlow.Json

/-- A library for JSON. Each function but `write` refuses what it does not understand. -/
structure Library where
  /-- The value of a text. -/
  read : String → Option Json
  /-- A text of a value. -/
  write : Json → String
  /-- A text. -/
  text : Json → Option String
  /-- A natural number of 64 bits. -/
  natural : Json → Option Nat
  /-- One of some names. -/
  variant : List String → Json → Option String
  /-- The elements of a list. -/
  items : Json → Option (List Json)
  /-- The keys and values of a map. -/
  entries : Json → Option (List (String × Json))
  /-- The values of the fields of a record, each if it is given. -/
  fields : List Field → Json → Option (List (Option Json))

namespace Library

/-- The library that runs. -/
def builtIn : Library where
  read := parse?
  write := render
  text := text?
  natural := natural?
  variant := variant?
  items := items?
  entries := entries?
  fields := fields?

/-- A list of values of one type. -/
def list? {α : Type} (j : Library) (read : Json → Option α) (v : Json) : Option (List α) :=
  j.items v >>= List.mapM read

end Library

/-- A value that must be there. -/
def required? {α : Type} (read : Json → Option α) : Option Json → Option α
  | none => none
  | some v => read v

/-- A value that may be absent or null. -/
def optional? {α : Type} (read : Json → Option α) : Option Json → Option (Option α)
  | none => some none
  | some .null => some none
  | some v => (read v).map some

/-- A value with a default for its absence; null is no value. -/
def withDefault? {α : Type} (default : α) (read : Json → Option α) : Option Json → Option α
  | none => some default
  | some v => read v

end LabelFlow.Json
