/-!
# Diagnostic codes

Every finding of the validator has a `Code`. A code has an identifier, a constant name, a default
severity, an explanation and, if its message depends on what was found, a message template with
`{key}` placeholders. `Code.ofId?` finds a code by its identifier.
-/

set_option autoImplicit false

namespace LabelFlow

/-- How much a finding weighs. -/
inductive Severity
  | error | warn | info
deriving DecidableEq, Repr

namespace Severity

/-- The written form of a severity. -/
def name : Severity → String
  | .error => "error"
  | .warn => "warn"
  | .info => "info"

/-- All severities. -/
def all : List Severity := [.error, .warn, .info]

/-- The severity of a written form. -/
def ofName? (name : String) : Option Severity := all.find? fun s => s.name == name

end Severity

/-- The kinds of findings. -/
inductive Code
  | unknownStatement
  | invalidForwarding
  | forwardWithoutInputs
  | trailingComma
  | invalidAssignment
  | missingOpeningParen
  | missingClosingParen
  | missingTerm
  | invalidTerm
  | duplicateInput
  | unknownInput
  | unknownLabelType
  | unknownLabelValue
  | invalidLabelDefinition
deriving DecidableEq, Repr

namespace Code

/-- All codes, in the order of their identifiers. -/
def all : List Code :=
  [.unknownStatement, .invalidForwarding, .forwardWithoutInputs, .trailingComma,
   .invalidAssignment, .missingOpeningParen, .missingClosingParen, .missingTerm, .invalidTerm,
   .duplicateInput, .unknownInput, .unknownLabelType, .unknownLabelValue,
   .invalidLabelDefinition]

/-- The identifier that diagnostics carry. -/
def id : Code → String
  | .unknownStatement => "BHV1001"
  | .invalidForwarding => "BHV1101"
  | .forwardWithoutInputs => "BHV1102"
  | .trailingComma => "BHV1103"
  | .invalidAssignment => "BHV1201"
  | .missingOpeningParen => "BHV1202"
  | .missingClosingParen => "BHV1203"
  | .missingTerm => "BHV1204"
  | .invalidTerm => "BHV1205"
  | .duplicateInput => "BHV2001"
  | .unknownInput => "BHV2002"
  | .unknownLabelType => "BHV2101"
  | .unknownLabelValue => "BHV2102"
  | .invalidLabelDefinition => "BHV2103"

/-- The name of the constant that stands for the identifier. -/
def constant : Code → String
  | .unknownStatement => "UNKNOWN_STATEMENT"
  | .invalidForwarding => "INVALID_FORWARDING"
  | .forwardWithoutInputs => "FORWARD_WITHOUT_INPUTS"
  | .trailingComma => "TRAILING_COMMA"
  | .invalidAssignment => "INVALID_ASSIGNMENT"
  | .missingOpeningParen => "MISSING_OPENING_PAREN"
  | .missingClosingParen => "MISSING_CLOSING_PAREN"
  | .missingTerm => "MISSING_TERM"
  | .invalidTerm => "INVALID_TERM"
  | .duplicateInput => "DUPLICATE_INPUT"
  | .unknownInput => "UNKNOWN_INPUT"
  | .unknownLabelType => "UNKNOWN_LABEL_TYPE"
  | .unknownLabelValue => "UNKNOWN_LABEL_VALUE"
  | .invalidLabelDefinition => "INVALID_LABEL_DEFINITION"

/-- The default severity: every code is an error. -/
def severity (_ : Code) : Severity := .error

/-- What a code means and how to mend it. -/
def explanation : Code → String
  | .unknownStatement =>
    "Every non-blank line of a behavior must be a comment (starting with '#' or '//'), a " ++
    "Forwarding statement or an Assignment statement. Leading whitespace is not ignored."
  | .invalidForwarding =>
    "A Forwarding statement must have the form Forwarding(\x7ba, b, ...\x7d) where every " ++
    "input is an identifier made of letters, digits, '_' and '|'. Nothing may follow the " ++
    "closing parenthesis."
  | .forwardWithoutInputs =>
    "A Forwarding statement passes inputs through unchanged and therefore needs at least " ++
    "one input name between the braces."
  | .trailingComma =>
    "Input lists are separated by single commas. A trailing comma, a leading comma or two " ++
    "adjacent commas leave an empty input, which is not allowed."
  | .invalidAssignment =>
    "An Assignment statement must have the form " ++
    "Assignment(\x7binputs\x7d;term;\x7bType.Value, ...\x7d): an input list, a boolean " ++
    "term and an output label list, separated by exactly two semicolons."
  | .missingOpeningParen =>
    "Parentheses of an Assignment statement, including those of the boolean term, must be " ++
    "balanced. The highlighted ')' closes a group that was never opened."
  | .missingClosingParen =>
    "Parentheses of an Assignment statement, including those of the boolean term, must be " ++
    "balanced. At least one '(' on this line is never closed."
  | .missingTerm =>
    "The part between the two semicolons of an Assignment statement is the boolean term " ++
    "deciding whether the output labels are set. It must not be empty; use TRUE to assign " ++
    "unconditionally."
  | .invalidTerm =>
    "A term combines TRUE, FALSE and label accesses of the form Type.Value with '!', " ++
    "'&&', '||' and parentheses. Operators need operands on both sides and a label access " ++
    "has exactly one dot."
  | .duplicateInput =>
    "Every input of a Forwarding statement may be listed only once. Each occurrence of a " ++
    "repeated input is reported."
  | .unknownInput =>
    "Inputs referenced by a behavior must be the names of input ports available on the " ++
    "node that owns the output port."
  | .unknownLabelType =>
    "The part before the dot of a label access names a label type. It must be one of the " ++
    "label types defined for the diagram."
  | .unknownLabelValue =>
    "The part after the dot of a label access names a value of the label type before the " ++
    "dot. It must be one of the values defined for that label type."
  | .invalidLabelDefinition =>
    "A label is written as Type.Value. Additional dot-separated parts are not allowed."

/-- The default message template, for messages that depend on what was found. -/
def template? : Code → Option String
  | .duplicateInput => some "duplicate input: \x7binput\x7d"
  | .unknownInput => some "invalid/unknown input: \x7binput\x7d"
  | .unknownLabelType => some "unknown label type: \x7blabelType\x7d"
  | .unknownLabelValue =>
    some "unknown label value of label type \x7blabelType\x7d: \x7blabelValue\x7d"
  | _ => none

/-- The message template of a variant. There is only the variant `default`. -/
def templateOf? (c : Code) (variant : String) : Option String :=
  if variant = "default" then c.template? else none

/-- The code with an identifier. -/
def ofId? (id : String) : Option Code := all.find? fun c => c.id == id

end Code

end LabelFlow
