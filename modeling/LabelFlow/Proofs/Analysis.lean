import LabelFlow.Validation.Validator

/-!
# What there is to find in a line

The check of a line gathers diagnostics as it goes along. Here is the same without lists that grow:
an `Analysis` has all findings of a line, each input counting as unknown, and the node decides which
of them stay (`Analysis.standing`). `Analysis.outcome` is what a line comes to, and
`Validator.visit` does come to it (`Validator.visit_eq`, in the module on accumulation).
-/

set_option autoImplicit false

namespace LabelFlow

/-! ## Findings and their diagnostics -/

namespace Finding

/-- The columns of a finding in its line. -/
def columns (f : Finding) (line : String) : Nat × Nat :=
  match f.span with
  | some s => s.columns line
  | none => (0, line.length)

/-- The diagnostic of a finding in a numbered line. -/
def diagnostic (f : Finding) (number : Nat) (line : String) : Diagnostic :=
  { id := f.problem.code.id
    severity := f.problem.code.severity
    message := f.problem.message
    line := number
    colStart := some (f.columns line).1
    colEnd := some (f.columns line).2
    context := f.problem.context? }

/-- Stays a finding on a node with the given inputs: only an unknown input may turn out to be
available. -/
def stands (available : List String) (f : Finding) : Bool :=
  match f.problem with
  | .unknownInput name => !available.contains name
  | _ => true

end Finding

/-! ## Analyses -/

/-- What a line gives without knowing the inputs of the node: its findings, among which every input
name that is listed counts as unknown, and whether the inputs have to be asked for. -/
structure Analysis where
  findings : List Finding
  needsInputs : Bool
deriving DecidableEq, Repr

namespace Analysis

/-- Nothing to report. -/
def clean : Analysis := ⟨[], false⟩

/-- Findings that hide what else there may be to say about a line. -/
def stopAt (findings : List Finding) : Analysis := ⟨findings, false⟩

/-- The findings that stay on a node with the given inputs. -/
def standing (a : Analysis) (available : List String) : List Finding :=
  a.findings.filter (Finding.stands available)

/-- The diagnostics of a numbered line for an owner, who is asked if the inputs are needed. -/
def outcome (a : Analysis) (owner : Owner) (q : Inquiry) (number : Nat) (line : String) :
    Except OwnerError (List Diagnostic × Inquiry) :=
  if a.needsInputs then do
    let (inputs, q) ← q.ask owner
    .ok ((a.standing inputs).map fun f => f.diagnostic number line, q)
  else .ok (a.findings.map fun f => f.diagnostic number line, q)

end Analysis

/-! ## Forwarding statements -/

namespace NameList

/-- The texts of the names, each once, in the order of their first appearance. -/
def distinct (l : NameList) : List String := (l.names.map Name.text).eraseDups

/-- The texts that stand for more than one name. -/
def repeated (l : NameList) : List String :=
  l.distinct.filter fun name => 1 < (l.names.map Name.text).count name

end NameList

namespace Forwarding

/-- Every place of a repeated name. -/
def duplicates (tokens : List Token) (names : NameList) : List Finding :=
  names.repeated.flatMap fun name =>
    (Token.placesOf (Token.inside tokens names.span) name .identifier).map fun s =>
      ⟨.duplicateInput name, some s⟩

/-- What there is to find in a statement that was read from a line of tokens. -/
def analyze (tokens : List Token) (f : Forwarding) : Analysis :=
  let names := f.inputs
  if names.names.all Name.isAbsent then .stopAt [.wholeLine .forwardWithoutInputs]
  else if names.names.any Name.isAbsent then .stopAt [⟨.trailingComma, names.blamedComma⟩]
  else if duplicates tokens names ≠ [] then .stopAt (duplicates tokens names)
  else
    { findings := names.distinct.map fun name =>
        ⟨.unknownInput name, Token.firstPlaceOf (Token.inside tokens names.span) name⟩
      needsInputs := true }

end Forwarding

/-! ## Assignment statements -/

namespace Assignment

/-- What is wrong with a label; the empty text stands for a missing value, which is fine. -/
def labelProblem? (catalog : Catalog) (labelType value : String) : Option Problem :=
  match catalog.find? labelType with
  | none => some (.unknownLabelType labelType)
  | some t =>
    if value = "" ∨ t.hasValue value then none else some (.unknownLabelValue labelType value)

/-- The problems of a label, if there is a catalog to check it against. -/
def labelProblems (catalog : Option Catalog) (labelType value : String) : List Problem :=
  (catalog.bind fun c => labelProblem? c labelType value).toList

/-- The problems of an output label. -/
def outputProblems (catalog : Option Catalog) (output : OutputLabel) : List Problem :=
  labelProblems catalog output.labelType.text output.valueText ++
    if output.extra.isEmpty then [] else [.invalidLabelDefinition]

/-- The problems of a statement whose term has the given label accesses, in order, with repeats. -/
def problems (catalog : Option Catalog) (accesses : List Access) (a : Assignment) : List Problem :=
  accesses.flatMap (fun l => labelProblems catalog l.labelType.text l.value.text) ++
    a.inputs.map (fun name => .unknownInput name.text) ++
    a.outputs.flatMap (outputProblems catalog)

/-- The findings of a problem: one for each place of a label name, one for an input name. -/
def findings (tokens : List Token) (a : Assignment) (p : Problem) : List Finding :=
  match p with
  | .unknownLabelType labelType =>
    (Token.placesOf (Token.inside tokens a.labelSpan) labelType .beforeDot).map fun s => ⟨p, some s⟩
  | .unknownLabelValue _ value =>
    (Token.placesOf (Token.inside tokens a.labelSpan) value .afterDot).map fun s => ⟨p, some s⟩
  | .unknownInput name => [⟨p, Token.firstPlaceOf (Token.inside tokens a.inputSpan) name⟩]
  | _ => [.wholeLine p]

/-- What there is to find in a statement that was read from a line of tokens. -/
def analyze (catalog : Option Catalog) (tokens : List Token) (a : Assignment) : Analysis :=
  match parenFinding 0 tokens with
  | some finding => .stopAt [finding]
  | none =>
    if a.term.text.toList.all Text.isBlank then .stopAt [.wholeLine .missingTerm]
    else
      match Access.ofTokens (Token.inside tokens a.term.span) with
      | .error _ => .stopAt [.wholeLine .invalidTerm]
      | .ok accesses =>
        { findings := (a.problems catalog accesses).eraseDups.flatMap (a.findings tokens)
          needsInputs := true }

end Assignment

/-! ## Lines -/

/-- What there is to find in a line. -/
def Validator.analyze (v : Validator) (line : String) : Analysis :=
  match LineForm.ofLine line with
  | .blank | .comment => .clean
  | .unknown => .stopAt [.wholeLine .unknownStatement]
  | .forwarding =>
    match Forwarding.parse? v.config.minNameLength line with
    | none => .stopAt [.wholeLine .invalidForwarding]
    | some f => f.analyze (Token.ofLine line)
  | .assignment =>
    match Assignment.parse? v.config.minNameLength line with
    | none => .stopAt [.wholeLine .invalidAssignment]
    | some a => a.analyze v.catalog (Token.ofLine line)

end LabelFlow
