import LabelFlow.Diagnostic.Code
import LabelFlow.Diagnostic.Template

/-!
# Diagnostics

A `Diagnostic` reports a finding at a line and a range of columns, both counted from zero.
`display` is its written form, which counts from one. It fails where a number of 64 bits does not
suffice to do so (`Overflow`).
-/

set_option autoImplicit false

namespace LabelFlow

/-- A number that is not one of 64 bits. -/
inductive Overflow
  | addition
deriving DecidableEq, Repr

/-- The wording of an overflow. -/
def Overflow.message : Overflow → String
  | .addition => "attempt to add with overflow"

/-- A finding addressed to one line of text. The identifier may be one that no `Code` has. -/
structure Diagnostic where
  id : String
  severity : Severity
  message : String
  line : Nat
  colStart : Option Nat
  colEnd : Option Nat
  context : Option Context
deriving DecidableEq

namespace Diagnostic

/-- A diagnostic without columns and context. -/
def ofLine (id : String) (severity : Severity) (message : String) (line : Nat) : Diagnostic :=
  ⟨id, severity, message, line, none, none, none⟩

/-- Sets both columns. -/
def setColumns (d : Diagnostic) (start stop : Nat) : Diagnostic :=
  { d with colStart := some start, colEnd := some stop }

/-- Sets the context. -/
def setContext (d : Diagnostic) (context : Context) : Diagnostic :=
  { d with context := some context }

/-- Fills in missing columns with those of a whole line. -/
def fillColumns (d : Diagnostic) (lineLength : Nat) : Diagnostic :=
  { d with colStart := some (d.colStart.getD 0), colEnd := some (d.colEnd.getD lineLength) }

/-- Both columns, if both are known. -/
def columns (d : Diagnostic) : Option (Nat × Nat) :=
  match d.colStart, d.colEnd with
  | some start, some stop => some (start, stop)
  | _, _ => none

/-- The explanation of the code, if it is known. -/
def explanation? (d : Diagnostic) : Option String := (Code.ofId? d.id).map Code.explanation

/-- A position counted from one. The last position of 64 bits has no such number. -/
def ordinal (position : Nat) : Except Overflow Nat :=
  if position + 1 < UInt64.size then .ok (position + 1) else .error .addition

/-- The columns as they are displayed, if both are known. -/
def displayColumns (d : Diagnostic) : Except Overflow String :=
  match d.columns with
  | some (start, stop) => do
    let start ← ordinal start
    .ok (", cols " ++ start.repr ++ "-" ++ stop.repr)
  | none => .ok ""

/-- The written form: severity, code, position and message. -/
def display (d : Diagnostic) : Except Overflow String := do
  let line ← ordinal d.line
  let columns ← d.displayColumns
  .ok (d.severity.name ++ "[" ++ d.id ++ "] line " ++ line.repr ++ columns ++ ": " ++ d.message)

end Diagnostic

end LabelFlow
