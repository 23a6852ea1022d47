import LabelFlow.Token

/-!
# Names in a statement

A `Name` stands at its place in a line. A term refers to a label by an `Access`, its type and its
value. A label of an output list is an `OutputLabel`, whose value may be absent and which may have
more segments than a label has.
-/

set_option autoImplicit false

namespace LabelFlow

/-- A name and the bytes it takes up. An absent name is the empty text. -/
structure Name where
  text : String
  span : Span
deriving DecidableEq, Repr

namespace Name

/-- No name at an offset. -/
def absent (offset : Nat) : Name := ⟨"", .point offset⟩

/-- The empty text stands for an absent name. -/
def isAbsent (n : Name) : Bool := n.text == ""

/-- The texts of names, each once, in the order of their first appearance. An absent name has no
text. -/
def distinct (names : List Name) : List String :=
  names.foldl (fun texts n =>
    if n.isAbsent || texts.contains n.text then texts else texts ++ [n.text]) []

/-- The name that one token spells. -/
def ofToken (t : Token) : Name := ⟨t.text, t.span⟩

/-- The name that neighbouring tokens spell together. -/
def ofTokens (first : Token) (more : List Token) : Name :=
  let text := Token.textOf (first :: more)
  ⟨text, ⟨first.start, first.start + Text.width text.toList⟩⟩

end Name

/-- A reference to a label value in a term. -/
structure Access where
  labelType : Name
  value : Name
deriving DecidableEq, Repr

namespace Access

/-- From the type to the value. -/
def span (a : Access) : Span := a.labelType.span.cover a.value.span

end Access

/-- A label of an output list: its type, the value after the first dot, and what follows further
dots. -/
structure OutputLabel where
  labelType : Name
  value : Option Name
  extra : List Name
deriving DecidableEq, Repr

namespace OutputLabel

/-- From the type to the last segment. -/
def span (l : OutputLabel) : Span :=
  match l.extra.getLast?, l.value with
  | some segment, _ => l.labelType.span.cover segment.span
  | none, some value => l.labelType.span.cover value.span
  | none, none => l.labelType.span

/-- The text of the value, empty if it is absent. -/
def valueText (l : OutputLabel) : String := (l.value.map Name.text).getD ""

end OutputLabel

end LabelFlow
