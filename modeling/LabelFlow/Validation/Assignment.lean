import LabelFlow.Catalog
import LabelFlow.Statement.Assignment
import LabelFlow.Term.Symbol
import LabelFlow.Validation.Context

/-!
# Checking an Assignment statement

The parentheses of the line must be balanced and the term must be there and be made of symbols; the
check stops where one of these fails. Then diagnostics are gathered in one list: for the labels of
the term, for the inputs, for the outputs. One that is in the list is not added again. Labels are
only checked against a catalog.
-/

set_option autoImplicit false

namespace LabelFlow

namespace Assignment

/-- The first parenthesis that closes nothing, or else one that is never closed, where `depth`
parentheses are open before the tokens. -/
def parenFinding (depth : Nat) : List Token → Option Finding
  | [] => if depth = 0 then none else some (.wholeLine .missingClosingParen)
  | t :: ts =>
    match t.kind, depth with
    | .openParen, depth => parenFinding (depth + 1) ts
    | .closeParen, 0 => some ⟨.missingOpeningParen, some t.span⟩
    | .closeParen, depth + 1 => parenFinding depth ts
    | _, depth => parenFinding depth ts

/-- Adds a diagnostic of a problem for each place of a name. -/
def reportPlaces (l : NumberedLine) (region : List Token) (p : Problem) (name : String)
    (surrounding : Surrounding) (out : List Diagnostic) : List Diagnostic :=
  (Token.placesOf region name surrounding).foldl
    (fun out s => pushUnique out (l.report ⟨p, some s⟩)) out

/-- Looks a label up. A type that is not known, or else a value that the type does not have, is
reported wherever it stands; the empty text stands for a missing value, which is fine. -/
def checkLabel (l : NumberedLine) (catalog : Catalog) (region : List Token)
    (labelType value : String) (out : List Diagnostic) : List Diagnostic :=
  match catalog.find? labelType with
  | none => reportPlaces l region (.unknownLabelType labelType) labelType .beforeDot out
  | some t =>
    if value = "" ∨ t.hasValue value then out
    else reportPlaces l region (.unknownLabelValue labelType value) value .afterDot out

/-- Checks the labels of the term that have not been seen before. -/
def checkAccesses (l : NumberedLine) (catalog : Catalog) (region : List Token)
    (seen : List (String × String)) (out : List Diagnostic) : List Access → List Diagnostic
  | [] => out
  | a :: as =>
    let label := (a.labelType.text, a.value.text)
    if seen.contains label then checkAccesses l catalog region seen out as
    else
      checkAccesses l catalog region (seen ++ [label])
        (checkLabel l catalog region a.labelType.text a.value.text out) as

/-- Checks the labels of the term, if there is a catalog. -/
def checkTerm (l : NumberedLine) (catalog : Option Catalog) (region : List Token)
    (accesses : List Access) : List Diagnostic :=
  match catalog with
  | some catalog => checkAccesses l catalog region [] [] accesses
  | none => []

/-- Checks the label of an output, if there is a catalog. Further segments are a fault of the whole
line. -/
def checkOutput (l : NumberedLine) (catalog : Option Catalog) (region : List Token)
    (out : List Diagnostic) (o : OutputLabel) : List Diagnostic :=
  let checked :=
    match catalog with
    | some catalog => checkLabel l catalog region o.labelType.text o.valueText out
    | none => out
  if o.extra.isEmpty then checked
  else pushUnique checked (l.report (.wholeLine .invalidLabelDefinition))

/-- Checks a statement that was read from a line. -/
def check (l : NumberedLine) (catalog : Option Catalog) (owner : Owner) (q : Inquiry)
    (a : Assignment) : Except OwnerError (List Diagnostic × Inquiry) :=
  match parenFinding 0 l.tokens with
  | some finding => .ok ([l.report finding], q)
  | none =>
    if a.term.text.toList.all Text.isBlank then .ok ([l.report (.wholeLine .missingTerm)], q)
    else
      match Access.ofTokens (Token.inside l.tokens a.term.span) with
      | .error _ => .ok ([l.report (.wholeLine .invalidTerm)], q)
      | .ok accesses => do
        let region := Token.inside l.tokens a.labelSpan
        let ofTerm := checkTerm l catalog region accesses
        let (available, q) ← q.ask owner
        let ofInputs := l.reportUnavailable pushUnique available
          (Token.inside l.tokens a.inputSpan) ofTerm (Name.distinct a.inputs)
        .ok (a.outputs.foldl (checkOutput l catalog region) ofInputs, q)

end Assignment

end LabelFlow
