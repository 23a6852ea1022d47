import LabelFlow.Statement
import LabelFlow.Validation.Context

/-!
# Checking a Forwarding statement

The checks of a Forwarding statement stop at the first one that fails: some name is given, none is
missing, none is repeated. Only then is the node asked, and the names have to be inputs of it.
-/

set_option autoImplicit false

namespace LabelFlow

namespace NameList

/-- From the first to the last name. -/
def span (l : NameList) : Span := l.more.foldl (fun s e => s.cover e.2.span) l.first.span

/-- The comma to blame for the first missing name: the one after it if it is the first of all, else
the one before it. -/
def blamedComma (l : NameList) : Option Span :=
  if l.first.isAbsent then l.commas.head?
  else (l.more.find? fun e => e.2.isAbsent).map Prod.fst

end NameList

namespace Forwarding

/-- Every place of each name in a region. -/
def reportRepeated (l : NumberedLine) (region : List Token) (names : List String) :
    List Diagnostic :=
  names.flatMap fun name =>
    (Token.placesOf region name .identifier).map fun s =>
      l.report ⟨.duplicateInput name, some s⟩

/-- Checks a statement that was read from a line. -/
def check (l : NumberedLine) (owner : Owner) (q : Inquiry) (f : Forwarding) :
    Except OwnerError (List Diagnostic × Inquiry) :=
  if f.inputs.names.all Name.isAbsent then
    .ok ([l.report (.wholeLine .forwardWithoutInputs)], q)
  else if f.inputs.names.any Name.isAbsent then
    .ok ([l.report ⟨.trailingComma, f.inputs.blamedComma⟩], q)
  else
    let region := Token.inside l.tokens f.inputs.span
    let names := Name.distinct f.inputs.names
    let found := reportRepeated l region
      (names.filter fun name => 1 < (f.inputs.names.map Name.text).count name)
    if found ≠ [] then .ok (found, q)
    else do
      let (available, q) ← q.ask owner
      .ok (l.reportUnavailable pushLast available region [] names, q)

end Forwarding

end LabelFlow
