import LabelFlow.Json

/-!
# Records in JSON

A record is an object with known members, in any order, among which unknown ones are passed over; it
may also be the array of its fields in their order. `Json.fields?` gives the values of the fields of
a record, and the readers beside it give values of simple types.
-/

set_option autoImplicit false

namespace LabelFlow.Json

/-- Where a field may be left out. -/
inductive Omission
  | never
  | inObjects
  /-- In objects, and at the end of arrays. -/
  | anywhere
deriving DecidableEq, Repr

/-- A field of a record. -/
structure Field where
  name : String
  omission : Omission
deriving DecidableEq, Repr

/-- The fields of a record that is given as an array. -/
def positional : List Field → List Json → Option (List (Option Json))
  | [], [] => some []
  | [], _ :: _ => none
  | f :: fs, [] => if f.omission = .anywhere then (positional fs []).map (none :: ·) else none
  | _ :: fs, v :: vs => (positional fs vs).map (some v :: ·)

/-- The keys of members as texts, if each has one. -/
def textKeys (members : List (Option String × Json)) : Option (List (String × Json)) :=
  members.mapM fun (key, v) => key.map fun key => (key, v)

/-- The value of a field in an object. A known key must not be given twice. -/
def named (members : List (String × Json)) (f : Field) : Option (Option Json) :=
  match members.filter fun m => m.1 == f.name with
  | [] => if f.omission = .never then none else some none
  | [m] => some (some m.2)
  | _ => none

/-- The values of the fields of a record, each if it is given. -/
def fields? (fields : List Field) : Json → Option (List (Option Json))
  | .array items => positional fields items
  | .object members => do
    let members ← textKeys members
    fields.mapM (named members)
  | _ => none

/-- The keys and values of an object. -/
def entries? : Json → Option (List (String × Json))
  | .object members => textKeys members
  | _ => none

/-- The elements of an array. -/
def items? : Json → Option (List Json)
  | .array items => some items
  | _ => none

/-- A text. -/
def text? : Json → Option String
  | .string text => text
  | _ => none

/-- A natural number of 64 bits, written without sign, fraction and exponent. -/
def natural? : Json → Option Nat
  | .number literal =>
    let value := Nat.ofDigitChars 10 literal.toList 0
    if literal.toList.all Char.isDigit && value < UInt64.size then some value else none
  | _ => none

/-- One of some names: its text, or an object with the name as its only key and nothing under it. -/
def variant? (names : List String) : Json → Option String
  | .string (some name) => if name ∈ names then some name else none
  | .object [(some name, .null)] => if name ∈ names then some name else none
  | _ => none

end LabelFlow.Json
