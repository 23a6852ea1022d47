import LabelFlow.Diagnostic
import LabelFlow.Span

/-!
# Problems of a line

A `Problem` says what is wrong with a line and about what name, a `Finding` says in addition where.
-/

set_option autoImplicit false

namespace LabelFlow

/-- What can be wrong with a line. -/
inductive Problem
  | unknownStatement
  | invalidForwarding
  | forwardWithoutInputs
  | trailingComma
  | invalidAssignment
  | missingOpeningParen
  | missingClosingParen
  | missingTerm
  | invalidTerm
  | duplicateInput (name : String)
  | unknownInput (name : String)
  | unknownLabelType (labelType : String)
  | unknownLabelValue (labelType value : String)
  | invalidLabelDefinition
deriving DecidableEq, Repr

namespace Problem

/-- The code of a problem. -/
def code : Problem → Code
  | .unknownStatement => .unknownStatement
  | .invalidForwarding => .invalidForwarding
  | .forwardWithoutInputs => .forwardWithoutInputs
  | .trailingComma => .trailingComma
  | .invalidAssignment => .invalidAssignment
  | .missingOpeningParen => .missingOpeningParen
  | .missingClosingParen => .missingClosingParen
  | .missingTerm => .missingTerm
  | .invalidTerm => .invalidTerm
  | .duplicateInput _ => .duplicateInput
  | .unknownInput _ => .unknownInput
  | .unknownLabelType _ => .unknownLabelType
  | .unknownLabelValue _ _ => .unknownLabelValue
  | .invalidLabelDefinition => .invalidLabelDefinition

/-- The names that a problem is about, under the keys of its code's template. -/
def context? : Problem → Option Context
  | .duplicateInput name => some (.ofList [("input", name)])
  | .unknownInput name => some (.ofList [("input", name)])
  | .unknownLabelType labelType => some (.ofList [("labelType", labelType)])
  | .unknownLabelValue labelType value =>
    some (.ofList [("labelType", labelType), ("labelValue", value)])
  | _ => none

/-- The message of a problem with a context: its code's template, filled in. A code without a
template has its identifier for a message. -/
def rendered (p : Problem) : String :=
  match p.code.template? with
  | some template => Template.render (p.context?.getD .empty) template
  | none => p.code.id

/-- The message of a problem. -/
def message : Problem → String
  | .unknownStatement => "Unknown statement"
  | .invalidForwarding => "invalid forwarding(Template:Forwarding(\x7bin_ports\x7d)"
  | .forwardWithoutInputs => "forward needs at least one input"
  | .trailingComma => "trailing comma without being followed by an input"
  | .invalidAssignment =>
    "invalid assignment(Template:Assignment(\x7bin_ports\x7d; term; \x7bout_label\x7d)"
  | .missingOpeningParen => "invalid assignment: missing opening parenthesis"
  | .missingClosingParen => "invalid assignment: missing closing parenthesis"
  | .missingTerm => "invalid assignment: missing term"
  | .invalidTerm => "invalid term"
  | .invalidLabelDefinition => "invalid label definition"
  | p => p.rendered

end Problem

/-- A problem at its place; without a span it is one of the whole line. -/
structure Finding where
  problem : Problem
  span : Option Span
deriving DecidableEq, Repr

namespace Finding

/-- A problem of the whole line. -/
def wholeLine (problem : Problem) : Finding := ⟨problem, none⟩

end Finding

end LabelFlow
