import LabelFlow.Config
import LabelFlow.Validation.Assignment
import LabelFlow.Validation.Forwarding

/-!
# Validating a text

A `Validator` goes through the lines of a text in order (`Validator.validate`) and checks each by
itself. The first line that needs the inputs of the node asks for them; it is an error to ask if
there is no node.
-/

set_option autoImplicit false

namespace LabelFlow

/-- What validating gives: the diagnostics, in the order of the lines, and how often the node was
asked for its inputs. -/
structure Outcome where
  diagnostics : List Diagnostic
  fetches : Nat
deriving DecidableEq

/-- A configuration, and perhaps a catalog to check labels against. -/
structure Validator where
  config : Config
  catalog : Option Catalog
deriving DecidableEq

namespace Validator

/-- Checks a line. -/
def check (v : Validator) (owner : Owner) (q : Inquiry) (l : NumberedLine) :
    Except OwnerError (List Diagnostic × Inquiry) :=
  match LineForm.ofLine l.text with
  | .blank | .comment => .ok ([], q)
  | .unknown => .ok ([l.report (.wholeLine .unknownStatement)], q)
  | .forwarding =>
    match Forwarding.parse? v.config.minNameLength l.text with
    | none => .ok ([l.report (.wholeLine .invalidForwarding)], q)
    | some f => f.check l owner q
  | .assignment =>
    match Assignment.parse? v.config.minNameLength l.text with
    | none => .ok ([l.report (.wholeLine .invalidAssignment)], q)
    | some a => a.check l v.catalog owner q

/-- The diagnostics of a numbered line, each with columns. -/
def visit (v : Validator) (owner : Owner) (q : Inquiry) (number : Nat) (line : String) :
    Except OwnerError (List Diagnostic × Inquiry) := do
  let (found, q) ← v.check owner q ⟨number, line⟩
  .ok (found.map fun d => d.fillColumns line.length, q)

/-- The diagnostics of lines, the first of which has the given number. -/
def visitLines (v : Validator) (owner : Owner) (q : Inquiry) (number : Nat) :
    List String → Except OwnerError (List Diagnostic × Inquiry)
  | [] => .ok ([], q)
  | line :: lines => do
    let (found, q) ← v.visit owner q number line
    let (more, q) ← v.visitLines owner q (number + 1) lines
    .ok (found ++ more, q)

/-- Validates a text for an owner. -/
def validate (v : Validator) (text : String) (owner : Owner) : Except OwnerError Outcome := do
  let (diagnostics, q) ← v.visitLines owner .start 0 (Text.lines text)
  .ok ⟨diagnostics, q.fetches⟩

/-- The validator with the default configuration. -/
def standard (catalog : Option Catalog) : Validator := ⟨.default, catalog⟩

end Validator

end LabelFlow
