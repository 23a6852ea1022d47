import LabelFlow.Label
import LabelFlow.Token.Front

/-!
# Statements

A line is told apart by how it begins, and nothing is trimmed (`LineForm.ofLine`). Input names stand
in braces, separated by commas; a name may be missing between two separators, so that the missing
name can be reported, and `NameList` keeps each comma with the name after it. `Forwarding({a, b})`
passes inputs on: `Forwarding.parse?` reads a whole line of this form, where names may be missing and
nothing else.
-/

set_option autoImplicit false

namespace LabelFlow

/-! ## Kinds of lines -/

/-- The word a Forwarding statement begins with. -/
def forwardingKeyword : String := "Forwarding"

/-- The word an Assignment statement begins with. -/
def assignmentKeyword : String := "Assignment"

/-- What a line holds, by its first characters. -/
inductive LineForm
  | blank | comment | forwarding | assignment | unknown
deriving DecidableEq, Repr

namespace LineForm

/-- A line begins with the characters of `front`. -/
def begins (front line : String) : Bool := front.toList.isPrefixOf line.toList

/-- Only the empty line is blank; a keyword counts even if its word goes on. -/
def ofLine (line : String) : LineForm :=
  if line = "" then .blank
  else if begins "#" line || begins "//" line then .comment
  else if begins forwardingKeyword line then .forwarding
  else if begins assignmentKeyword line then .assignment
  else .unknown

end LineForm

/-! ## Lists of input names -/

/-- A comma list of names, some of them perhaps absent. -/
structure NameList where
  first : Name
  more : List (Span × Name)
deriving DecidableEq, Repr

namespace NameList

/-- The names, in order. -/
def names (l : NameList) : List Name := l.first :: l.more.map Prod.snd

/-- The commas, in order. -/
def commas (l : NameList) : List Span := l.more.map Prod.fst

/-- The name in a stretch of tokens between separators, the first of which ends at `start`. A name
is a word followed by words and pipes, of at least `minLength` characters. If there is none, it is
absent at the end of the stretch. -/
def readName (minLength start : Nat) (tokens : List Token) : Option Name :=
  match Token.unpad? tokens with
  | none => none
  | some [] => some (.absent (Token.stopOr start tokens))
  | some (t :: ts) =>
    if t.kind = .word ∧ ts.all Token.isIdentPart ∧
        minLength ≤ (Name.ofTokens t ts).text.length then
      some (.ofTokens t ts)
    else none

/-- The comma list in braces. -/
def read (minLength : Nat) (list : Braced) : Option NameList := do
  let pieces := Token.cutAtCommas list.body
  let first ← readName minLength list.opening.stop pieces.head
  let more ← pieces.tail.mapM fun (comma, stretch) =>
    (readName minLength comma.stop stretch).map fun name => (comma.span, name)
  some ⟨first, more⟩

end NameList

/-! ## Forwarding statements -/

/-- A Forwarding statement. -/
structure Forwarding where
  inputs : NameList
deriving DecidableEq, Repr

namespace Forwarding

/-- Reads a line whose input names have at least `minLength` characters. -/
def parse? (minLength : Nat) (line : String) : Option Forwarding := do
  let rest ← Token.takeWord? forwardingKeyword (Token.ofLine line)
  let (_, rest) ← Token.take? .openParen rest
  let (list, rest) ← Token.takeBraced? rest
  let inputs ← NameList.read minLength list
  let (_, rest) ← Token.take? .closeParen rest
  if rest.isEmpty then some ⟨inputs⟩ else none

end Forwarding

end LabelFlow
