import LabelFlow.Statement

/-!
# Assignment statements

`Assignment({a, b}; term; {Type.Value})` sets labels where a term holds. `Assignment.parse?` reads a
whole line of this form. Parentheses around its parts are passed over here, and the term is only
delimited: it may hold anything of the alphabet of terms.
-/

set_option autoImplicit false

namespace LabelFlow

/-- An Assignment statement. `inputSpan` runs from brace to brace, `labelSpan` from the start of the
term to the brace that closes the outputs. -/
structure Assignment where
  inputs : List Name
  term : Name
  outputs : List OutputLabel
  inputSpan : Span
  labelSpan : Span
deriving DecidableEq, Repr

namespace OutputLabel

/-- Segments that each begin with a dot; the word after it may be missing. -/
def readSegments : List Token → Option (List Name)
  | [] => some []
  | [dot] => if dot.kind = .dot then some [.absent dot.stop] else none
  | dot :: next :: rest =>
    if dot.kind = .dot then
      if next.kind = .word then (readSegments rest).map (.ofToken next :: ·)
      else (readSegments (next :: rest)).map (.absent dot.stop :: ·)
    else none

/-- A word and at least one segment, blanks around them aside. -/
def read (tokens : List Token) : Option OutputLabel :=
  match Token.unpad? tokens with
  | some (t :: ts) =>
    if t.kind = .word then
      match readSegments ts with
      | some (value :: extra) =>
        some ⟨.ofToken t, if value.isAbsent then none else some value, extra⟩
      | _ => none
    else none
  | _ => none

end OutputLabel

namespace Assignment

/-- The input names; blanks alone are the empty list, and no name may be missing. -/
def readInputs (minLength : Nat) (list : Braced) : Option (List Name) :=
  if list.body.all Token.isBlank then some []
  else do
    let names ← NameList.read minLength list
    if names.names.any Name.isAbsent then none else some names.names

/-- The output labels; blanks alone are the empty list. -/
def readOutputs (list : Braced) : Option (List OutputLabel) :=
  if list.body.all Token.isBlank then some []
  else (Token.cutAtCommas list.body).stretches.mapM OutputLabel.read

/-- Reads a line whose input names have at least `minLength` characters. -/
def parse? (minLength : Nat) (line : String) : Option Assignment := do
  let rest ← Token.takeWord? assignmentKeyword (Token.ofLine line)
  let (_, rest) ← Token.take? .openParen rest
  let (inputList, rest) ← Token.takeBraced? (rest.dropWhile Token.isParen)
  let inputs ← readInputs minLength inputList
  let (before, rest) ← Token.take? .semicolon (rest.dropWhile Token.isParen)
  let term := rest.takeWhile Token.isTermPart
  let (after, rest) ← Token.take? .semicolon (rest.dropWhile Token.isTermPart)
  let (outputList, rest) ← Token.takeBraced? (rest.dropWhile Token.isParen)
  let outputs ← readOutputs outputList
  if rest.all Token.isParen then
    some {
      inputs := inputs
      term := ⟨Token.textOf term, ⟨before.stop, after.start⟩⟩
      outputs := outputs
      inputSpan := inputList.span
      labelSpan := ⟨before.stop, outputList.closing.stop⟩ }
  else none

end Assignment

end LabelFlow
