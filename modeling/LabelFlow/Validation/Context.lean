import LabelFlow.Token.Search
import LabelFlow.Validation.Problem

/-!
# What the check of a line works with

A check knows a line and its number (`NumberedLine`), with which it makes diagnostics of findings,
and may ask the node for its inputs. What the node answers is kept for the lines after it
(`Inquiry`). Diagnostics are added to a growing list, perhaps only if they are not there yet
(`pushUnique`).
-/

set_option autoImplicit false

namespace LabelFlow

/-! ## The node -/

/-- What a behavior belongs to: nothing, or a node with inputs of the given names. -/
inductive Owner
  | missing
  | node (inputs : List String)
deriving DecidableEq, Repr

/-- Why a text cannot be validated. -/
inductive OwnerError
  | notNode
deriving DecidableEq, Repr

/-- The wording of the error. -/
def OwnerError.message : OwnerError → String
  | .notNode => "output port's parent is not a dataflow node"

/-- What has been asked so far: the inputs, once they are known, and how often the node was asked
for them. -/
structure Inquiry where
  known : Option (List String)
  fetches : Nat
deriving DecidableEq, Repr

namespace Inquiry

/-- Nothing has been asked. -/
def start : Inquiry := ⟨none, 0⟩

/-- The inputs, asked for if they are not known. -/
def ask (q : Inquiry) (owner : Owner) : Except OwnerError (List String × Inquiry) :=
  match q.known, owner with
  | some inputs, _ => .ok (inputs, q)
  | none, .node inputs => .ok (inputs, ⟨some inputs, q.fetches + 1⟩)
  | none, .missing => .error .notNode

end Inquiry

/-! ## Diagnostics of a line -/

/-- Adds a diagnostic behind the others. -/
def pushLast (out : List Diagnostic) (d : Diagnostic) : List Diagnostic := out ++ [d]

/-- Adds a diagnostic behind the others, unless it is one of them. -/
def pushUnique (out : List Diagnostic) (d : Diagnostic) : List Diagnostic :=
  if d ∈ out then out else out ++ [d]

/-- A line of a text and its number. -/
structure NumberedLine where
  number : Nat
  text : String
deriving DecidableEq, Repr

namespace NumberedLine

/-- The tokens of the line. -/
def tokens (l : NumberedLine) : List Token := Token.ofLine l.text

/-- The diagnostic of a finding. One of the whole line has no columns yet. -/
def report (l : NumberedLine) (f : Finding) : Diagnostic :=
  let plain :=
    Diagnostic.ofLine f.problem.code.id f.problem.code.severity f.problem.message l.number
  let placed :=
    match f.span with
    | some s => plain.setColumns (s.columns l.text).1 (s.columns l.text).2
    | none => plain
  match f.problem.context? with
  | some context => placed.setContext context
  | none => placed

/-- Goes through names of inputs. One that is available is passed over; any other is looked for in
the region, and reported at its first place there. -/
def reportUnavailable (l : NumberedLine) (push : List Diagnostic → Diagnostic → List Diagnostic)
    (available : List String) (region : List Token) (out : List Diagnostic) :
    List String → List Diagnostic
  | [] => out
  | name :: names =>
    if available.contains name then l.reportUnavailable push available region out names
    else
      let d := l.report ⟨.unknownInput name, Token.firstPlaceOf region name⟩
      l.reportUnavailable push available region (push out d) names

end NumberedLine

end LabelFlow
