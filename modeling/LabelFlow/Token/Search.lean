import LabelFlow.Token

/-!
# Finding names among tokens

`Token.inside` selects the tokens inside a span and `Token.startsOf` finds a name among tokens: as a
whole identifier, as the part of a label before a dot, or as a part after a dot (`Surrounding`).
-/

set_option autoImplicit false

namespace LabelFlow

/-- What must stand around an occurrence of a name. -/
inductive Surrounding
  /-- A whole identifier. -/
  | identifier
  /-- A word with a dot after it. -/
  | beforeDot
  /-- A word with a dot before it. -/
  | afterDot
deriving DecidableEq, Repr

namespace Token

/-- The tokens that lie inside a span. Tokens stand in ascending order, so those before the span
are skipped first and the selection ends at the first token that reaches past it. -/
def inside (tokens : List Token) (s : Span) : List Token :=
  (tokens.dropWhile fun t => decide (t.start < s.start)).takeWhile fun t => decide (t.stop ≤ s.stop)

/-- The longest stretches of words and pipes; stretches without tokens may be among them. -/
def identifierRuns (tokens : List Token) : List (List Token) :=
  (Pieces.cut (fun t : Token => !t.isIdentPart) tokens).stretches

/-- Each token with the one that follows it. -/
def neighbours (tokens : List Token) : List (Token × Token) := tokens.zip tokens.tail

/-- The offset of a stretch of tokens, if its characters are the name. -/
def startIfNamed (name : String) : List Token → Option Nat
  | [] => none
  | t :: ts => if textOf (t :: ts) = name then some t.start else none

/-- The offsets at which a name occurs, in ascending order. -/
def startsOf (tokens : List Token) (name : String) : Surrounding → List Nat
  | .identifier => (identifierRuns tokens).filterMap (startIfNamed name)
  | .beforeDot =>
    (neighbours tokens).filterMap fun (t, next) =>
      if t.kind = .word ∧ t.text = name ∧ next.kind = .dot then some t.start else none
  | .afterDot =>
    (neighbours tokens).filterMap fun (previous, t) =>
      if previous.kind = .dot ∧ t.kind = .word ∧ t.text = name then some t.start else none

/-- The places where a name occurs. -/
def placesOf (tokens : List Token) (name : String) (surrounding : Surrounding) : List Span :=
  (startsOf tokens name surrounding).map fun p => ⟨p, p + Text.width name.toList⟩

/-- The first place where a name stands as a whole identifier. -/
def firstPlaceOf (tokens : List Token) (name : String) : Option Span :=
  (placesOf tokens name .identifier).head?

end Token

end LabelFlow
