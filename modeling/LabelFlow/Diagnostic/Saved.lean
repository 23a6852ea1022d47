import LabelFlow.Diagnostic
import LabelFlow.Json.Library

/-!
# Saved diagnostics

A diagnostic is saved as a JSON object without the members it has no value for, and read from a
record.
-/

set_option autoImplicit false

namespace LabelFlow

/-- Reads a severity by its name. -/
def Severity.ofJson? (j : Json.Library) (v : Json) : Option Severity :=
  j.variant (Severity.all.map Severity.name) v >>= Severity.ofName?

namespace Context

/-- Reads a context; the last value of a key counts. -/
def ofJson? (j : Json.Library) (v : Json) : Option Context := do
  let members ← j.entries v
  let entries ← members.mapM fun (key, v) => (j.text v).map fun value => (key, value)
  some (ofList entries)

/-- Saves a context. -/
def toJson (c : Context) : Json := .record (c.entries.map fun e => (e.1, .text e.2))

end Context

namespace Diagnostic

/-- The fields of a saved diagnostic. -/
def fields : List Json.Field :=
  [⟨"id", .never⟩, ⟨"severity", .never⟩, ⟨"message", .never⟩, ⟨"line", .never⟩,
   ⟨"colStart", .inObjects⟩, ⟨"colEnd", .inObjects⟩, ⟨"context", .inObjects⟩]

/-- Reads a saved diagnostic. -/
def ofJson? (j : Json.Library) (v : Json) : Option Diagnostic :=
  match j.fields fields v with
  | some [id, severity, message, line, colStart, colEnd, context] => do
    some {
      id := ← Json.required? j.text id
      severity := ← Json.required? (Severity.ofJson? j) severity
      message := ← Json.required? j.text message
      line := ← Json.required? j.natural line
      colStart := ← Json.optional? j.natural colStart
      colEnd := ← Json.optional? j.natural colEnd
      context := ← Json.optional? (Context.ofJson? j) context }
  | _ => none

/-- Loads a saved diagnostic. -/
def ofSaved? (j : Json.Library) (text : String) : Option Diagnostic := j.read text >>= ofJson? j

/-- A member that is left out if it has no value. -/
def member {α : Type} (name : String) (save : α → Json) (value : Option α) :
    List (String × Json) :=
  (value.map fun v => (name, save v)).toList

/-- The members that a diagnostic is saved with. -/
def members (d : Diagnostic) : List (String × Json) :=
  [("id", .text d.id), ("severity", .text d.severity.name), ("message", .text d.message),
    ("line", .natural d.line)] ++ member "colStart" .natural d.colStart ++
    member "colEnd" .natural d.colEnd ++ member "context" Context.toJson d.context

/-- Saves a diagnostic. -/
def toJson (d : Diagnostic) : Json := .record d.members

end Diagnostic

end LabelFlow
