import LabelFlow.Catalog
import LabelFlow.Json.Library
import LabelFlow.Text

/-!
# Saved catalogs

A catalog is saved as a JSON array of its label types. A saved diagram is an object that may carry
such an array as its `labelTypes`. `Catalog.ofArray`, `Catalog.ofDiagram` and `Catalog.ofSaved`,
which takes either form, load a catalog, and `Catalog.toJson` saves one.
-/

set_option autoImplicit false

namespace LabelFlow

namespace LabelValue

/-- The fields of a saved value. -/
def fields : List Json.Field := [⟨"id", .anywhere⟩, ⟨"text", .never⟩]

/-- Reads a saved value. -/
def ofJson? (j : Json.Library) (v : Json) : Option LabelValue :=
  match j.fields fields v with
  | some [id, text] => do
    some ⟨← Json.withDefault? "" j.text id, ← Json.required? j.text text⟩
  | _ => none

/-- Saves a value. -/
def toJson (v : LabelValue) : Json := .record [("id", .text v.id), ("text", .text v.text)]

end LabelValue

namespace LabelType

/-- The fields of a saved label type. -/
def fields : List Json.Field := [⟨"id", .anywhere⟩, ⟨"name", .never⟩, ⟨"values", .anywhere⟩]

/-- Reads a saved label type. -/
def ofJson? (j : Json.Library) (v : Json) : Option LabelType :=
  match j.fields fields v with
  | some [id, name, values] => do
    some ⟨← Json.withDefault? "" j.text id, ← Json.required? j.text name,
      ← Json.withDefault? [] (j.list? (LabelValue.ofJson? j)) values⟩
  | _ => none

/-- Saves a label type. -/
def toJson (t : LabelType) : Json :=
  .record [("id", .text t.id), ("name", .text t.name),
    ("values", .array (t.values.map LabelValue.toJson))]

end LabelType

namespace Catalog

/-- Why a saved catalog is refused: its text is not readable, or its types make no catalog. -/
inductive LoadError
  | unreadable
  | invalid (violation : CatalogError)
deriving DecidableEq, Repr

/-- The wording of a refusal. What is wrong with an unreadable text is left open. -/
def LoadError.message : LoadError → String
  | .unreadable => "invalid label catalog JSON: "
  | .invalid violation => violation.message

/-- The catalog of label types that may have been read. -/
def load (types : Option (List LabelType)) : Except LoadError Catalog :=
  match types with
  | none => .error .unreadable
  | some types => (ofTypes types).mapError .invalid

/-- Label types in an array. -/
def typesOfJson? (j : Json.Library) (v : Json) : Option (List LabelType) :=
  j.list? (LabelType.ofJson? j) v

/-- Loads a catalog that is saved as an array. -/
def ofArray (j : Json.Library) (text : String) : Except LoadError Catalog :=
  load (j.read text >>= typesOfJson? j)

/-- The fields of a saved diagram; whatever else it has is passed over. -/
def diagramFields : List Json.Field := [⟨"labelTypes", .anywhere⟩]

/-- The label types of a saved diagram, if it has some. -/
def diagramTypes? (j : Json.Library) (v : Json) : Option (Option (List LabelType)) :=
  match j.fields diagramFields v with
  | some [types] => Json.optional? (typesOfJson? j) types
  | _ => none

/-- Loads the catalog of a saved diagram, if it has one. -/
def ofDiagram (j : Json.Library) (text : String) : Except LoadError (Option Catalog) :=
  match j.read text >>= diagramTypes? j with
  | none => .error .unreadable
  | some none => .ok none
  | some (some types) => (load (some types)).map some

/-- Begins with an opening bracket, white space aside. -/
def isArrayText (text : String) : Bool :=
  (text.toList.dropWhile Text.isWhite).head? == some '['

/-- Loads the catalog of an array or of a diagram. -/
def ofSaved (j : Json.Library) (text : String) : Except LoadError (Option Catalog) :=
  if isArrayText text then (ofArray j text).map some else ofDiagram j text

/-- Saves a catalog as an array. -/
def toJson (c : Catalog) : Json := .array (c.types.map LabelType.toJson)

end Catalog

end LabelFlow
