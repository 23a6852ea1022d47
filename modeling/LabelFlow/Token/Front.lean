import LabelFlow.Token

/-!
# Taking tokens off the front

Statements are read from the front: one token of a kind (`take?`), a keyword (`takeWord?`) or a list
in braces (`takeBraced?`), each with the tokens that follow.
-/

set_option autoImplicit false

namespace LabelFlow

namespace Token

/-- The first token and the others, if the first is of a kind. -/
def take? (kind : Kind) : List Token → Option (Token × List Token)
  | [] => none
  | t :: ts => if t.kind = kind then some (t, ts) else none

/-- The tokens after a word. -/
def takeWord? (word : String) : List Token → Option (List Token)
  | [] => none
  | t :: ts => if t.kind = .word ∧ t.text = word then some ts else none

end Token

/-- A list in braces; no brace closes inside it. -/
structure Braced where
  opening : Token
  body : List Token
  closing : Token
deriving DecidableEq, Repr

namespace Braced

/-- From the opening to the closing brace, both included. -/
def span (b : Braced) : Span := b.opening.span.cover b.closing.span

end Braced

namespace Token

/-- A list in braces, up to the first closing brace, and the tokens after it. -/
def takeBraced? (tokens : List Token) : Option (Braced × List Token) := do
  let (opening, rest) ← take? .openBrace tokens
  let (closing, after) ← take? .closeBrace (rest.dropWhile fun t => t.kind != .closeBrace)
  some (⟨opening, rest.takeWhile fun t => t.kind != .closeBrace, closing⟩, after)

/-- What stands between blanks, if blanks stand only around it. -/
def unpad? (tokens : List Token) : Option (List Token) :=
  let rest := tokens.dropWhile Token.isBlank
  if (rest.dropWhile fun t => !t.isBlank).all Token.isBlank then
    some (rest.takeWhile fun t => !t.isBlank)
  else none

/-- A list cut at its commas. -/
def cutAtCommas (tokens : List Token) : Pieces Token :=
  Pieces.cut (fun t : Token => t.kind == .comma) tokens

end Token

end LabelFlow
