import LabelFlow.Proofs.Offsets
import LabelFlow.Statement.Assignment
import LabelFlow.Statement

/-!
# Layouts of statements

A layout is a way a statement is written: its parts, with the blanks and parentheses around them. It
has characters (`chars`), a condition on its parts (`Valid`), and it says what a reader of the line
has to find and at which offsets (`value`). Layouts know nothing of tokens.
-/

set_option autoImplicit false

namespace LabelFlow

namespace Text

/-- Blanks only, or nothing. -/
def Blank (cs : List Char) : Prop := ∀ c ∈ cs, isBlank c = true

/-- Word characters only, or nothing. -/
def Wordy (cs : List Char) : Prop := ∀ c ∈ cs, isWord c = true

/-- At least one character, and word characters only. -/
def Word (cs : List Char) : Prop := cs ≠ [] ∧ Wordy cs

/-- A word character, then word characters and pipes. -/
def Identifier (cs : List Char) : Prop :=
  ∃ c rest, cs = c :: rest ∧ isWord c = true ∧ ∀ x ∈ rest, isWord x = true ∨ x = '|'

/-- A character of names. -/
def isNamePart (c : Char) : Bool := isWord c || c == '|'

/-- Parentheses only, or nothing. -/
def Parens (cs : List Char) : Prop := ∀ c ∈ cs, c = '(' ∨ c = ')'

/-- What may stand in a term, well formed or not. -/
def TermText (cs : List Char) : Prop :=
  ∀ c ∈ cs, isBlank c = true ∨ c = '!' ∨ isWord c = true ∨ c = '.' ∨ c = '|' ∨ c = '&' ∨
    c = '(' ∨ c = ')'

/-- A sequence of the symbols of terms, with the types and the values of the labels among them. A
word ends where no word character follows. -/
inductive Symbols : List Char → List (List Char × List Char) → Prop
  | nil : Symbols [] []
  | single {c : Char} {cs : List Char} {labels : List (List Char × List Char)}
      (symbol : isBlank c = true ∨ c = '!' ∨ c = '(' ∨ c = ')') (rest : Symbols cs labels) :
      Symbols (c :: cs) labels
  | double {c : Char} {cs : List Char} {labels : List (List Char × List Char)}
      (symbol : c = '|' ∨ c = '&') (rest : Symbols cs labels) : Symbols (c :: c :: cs) labels
  | literal {w cs : List Char} {labels : List (List Char × List Char)}
      (symbol : w = "TRUE".toList ∨ w = "FALSE".toList) (ends : ∀ x ∈ cs.head?, isWord x = false)
      (rest : Symbols cs labels) : Symbols (w ++ cs) labels
  | access {labelType value cs : List Char} {labels : List (List Char × List Char)}
      (isType : Word labelType) (isValue : Word value) (ends : ∀ x ∈ cs.head?, isWord x = false)
      (rest : Symbols cs labels) :
      Symbols (labelType ++ '.' :: (value ++ cs)) ((labelType, value) :: labels)

instance (cs : List Char) : Decidable (Blank cs) :=
  List.decidableBAll (fun c => isBlank c = true) cs

instance (cs : List Char) : Decidable (Wordy cs) :=
  List.decidableBAll (fun c => isWord c = true) cs

instance (cs : List Char) : Decidable (Word cs) :=
  inferInstanceAs (Decidable (cs ≠ [] ∧ Wordy cs))

instance : ∀ cs : List Char, Decidable (Identifier cs)
  | [] => .isFalse fun ⟨_, _, h, _⟩ => List.cons_ne_nil _ _ h.symm
  | c :: rest =>
    have : Decidable (∀ x ∈ rest, isWord x = true ∨ x = '|') := List.decidableBAll _ rest
    decidable_of_iff (isWord c = true ∧ ∀ x ∈ rest, isWord x = true ∨ x = '|')
      ⟨fun h => ⟨c, rest, rfl, h⟩, fun ⟨_, _, h, hc⟩ => by cases h; exact hc⟩

instance (cs : List Char) : Decidable (Parens cs) :=
  List.decidableBAll (fun c => c = '(' ∨ c = ')') cs

end Text

/-- The name that characters spell at an offset; no characters spell an absent name. -/
def Name.spelled (offset : Nat) (cs : List Char) : Name :=
  ⟨.ofList cs, ⟨offset, offset + Text.width cs⟩⟩

namespace Layout

/-- A part of a comma list with the blanks around it. -/
structure Padded (α : Type) where
  before : List Char
  core : α
  after : List Char

namespace Padded

variable {α : Type}

/-- The characters of a part whose core is written in a given way. -/
def chars (written : α → List Char) (p : Padded α) : List Char :=
  p.before ++ (written p.core ++ p.after)

/-- Blanks stand around a core that satisfies a condition. -/
structure Valid (ok : α → Prop) (p : Padded α) : Prop where
  before : Text.Blank p.before
  core : ok p.core
  after : Text.Blank p.after

end Padded

/-- The parts of a comma list that follow the first one, each with its comma. -/
def trailing {α : Type} (written : α → List Char) (more : List (Padded α)) : List Char :=
  more.flatMap fun p => ',' :: p.chars written

/-! ## Names -/

/-- A name of a list of inputs; an absent name has no characters. -/
abbrev Item := Padded (List Char)

/-- An identifier of at least `minLength` characters. -/
def InputName (minLength : Nat) (cs : List Char) : Prop :=
  Text.Identifier cs ∧ minLength ≤ cs.length

/-- An identifier of at least `minLength` characters, or nothing. -/
def OptionalName (minLength : Nat) (cs : List Char) : Prop := cs = [] ∨ InputName minLength cs

namespace Item

/-- The name in an item that begins at an offset; an absent one stands after the blanks. -/
def name (offset : Nat) (p : Item) : Name :=
  if p.core = [] then .absent (offset + Text.width p.before + Text.width p.after)
  else .spelled (offset + Text.width p.before) p.core

end Item

/-- The name list of items, the first of which begins at an offset. -/
def nameList (offset : Nat) (first : Item) (more : List Item) : NameList :=
  { first := Item.name offset first
    more := (Text.placed (Padded.chars id) (offset + Text.width (first.chars id)) more).map fun e =>
      (⟨e.1, e.1 + 1⟩, Item.name (e.1 + 1) e.2) }

/-! ## Forwarding -/

/-- The characters of a Forwarding statement with the given items. -/
def forwarding (first : Item) (more : List Item) : List Char :=
  "Forwarding(\x7b".toList ++ (first.chars id ++ (trailing id more ++ "\x7d)".toList))

/-! ## Output labels -/

/-- An output label: its type, the value, and further segments. An absent segment has no
characters. -/
structure Path where
  labelType : List Char
  value : List Char
  extra : List (List Char)

namespace Path

/-- The type, then each segment with its dot. -/
def chars (p : Path) : List Char := p.labelType ++ (p.value :: p.extra).flatMap ('.' :: ·)

/-- The type is a word, a segment may be absent. -/
structure Valid (p : Path) : Prop where
  labelType : Text.Word p.labelType
  segments : ∀ w ∈ p.value :: p.extra, Text.Wordy w

/-- The segments at their places, where the first dot is at an offset. -/
def names (offset : Nat) (segments : List (List Char)) : List Name :=
  (Text.placed id offset segments).map fun e => .spelled (e.1 + 1) e.2

/-- The output label of a path that begins at an offset. -/
def label (offset : Nat) (p : Path) : OutputLabel :=
  let dot := offset + Text.width p.labelType
  { labelType := .spelled offset p.labelType
    value := if p.value = [] then none else some (.spelled (dot + 1) p.value)
    extra := names (dot + 1 + Text.width p.value) p.extra }

end Path

/-! ## Assignment -/

/-- What stands in braces: blanks alone, or a comma list. -/
inductive Listing (α : Type)
  | blank (cs : List Char)
  | parts (first : Padded α) (more : List (Padded α))

namespace Listing

variable {α : Type}

/-- The characters of a list. -/
def chars (written : α → List Char) : Listing α → List Char
  | .blank cs => cs
  | .parts first more => first.chars written ++ trailing written more

/-- The parts of a list. -/
def padded : Listing α → List (Padded α)
  | .blank _ => []
  | .parts first more => first :: more

/-- Blanks, or parts that satisfy a condition. -/
def Valid (ok : α → Prop) : Listing α → Prop
  | .blank cs => Text.Blank cs
  | .parts first more => ∀ p ∈ first :: more, p.Valid ok

/-- What the parts of a list stand for, where the list begins at an offset and `read` says what a
part at an offset stands for. -/
def values {β : Type} (written : α → List Char) (read : Nat → α → β) (offset : Nat) :
    Listing α → List β
  | .blank _ => []
  | .parts first more =>
    read (offset + Text.width first.before) first.core ::
      (Text.placed (Padded.chars written) (offset + Text.width (first.chars written)) more).map
        fun e => read (e.1 + 1 + Text.width e.2.before) e.2.core

end Listing

/-- An Assignment statement. -/
structure Assignment where
  parens₁ : List Char
  inputs : Listing (List Char)
  parens₂ : List Char
  term : List Char
  parens₃ : List Char
  outputs : Listing Path
  parens₄ : List Char

namespace Assignment

/-- The characters of a statement. -/
def chars (a : Assignment) : List Char :=
  "Assignment(".toList ++ (a.parens₁ ++ '\x7b' :: (a.inputs.chars id ++ '\x7d' ::
    (a.parens₂ ++ ';' :: (a.term ++ ';' ::
      (a.parens₃ ++ '\x7b' :: (a.outputs.chars Path.chars ++ '\x7d' :: a.parens₄))))))

/-- The condition on the parts of a statement. -/
structure Valid (minLength : Nat) (a : Assignment) : Prop where
  parens₁ : Text.Parens a.parens₁
  inputs : a.inputs.Valid (InputName minLength)
  parens₂ : Text.Parens a.parens₂
  term : Text.TermText a.term
  parens₃ : Text.Parens a.parens₃
  outputs : a.outputs.Valid Path.Valid
  parens₄ : Text.Parens a.parens₄

/-- The offset of the brace that opens the inputs. -/
def inputsOpen (a : Assignment) : Nat := 11 + Text.width a.parens₁

/-- The offset of the brace that closes the inputs. -/
def inputsClose (a : Assignment) : Nat := a.inputsOpen + 1 + Text.width (a.inputs.chars id)

/-- The offset of the term. -/
def termStart (a : Assignment) : Nat := a.inputsClose + 1 + Text.width a.parens₂ + 1

/-- The offset of the semicolon after the term. -/
def termStop (a : Assignment) : Nat := a.termStart + Text.width a.term

/-- The offset of the brace that opens the outputs. -/
def outputsOpen (a : Assignment) : Nat := a.termStop + 1 + Text.width a.parens₃

/-- The offset of the brace that closes the outputs. -/
def outputsClose (a : Assignment) : Nat :=
  a.outputsOpen + 1 + Text.width (a.outputs.chars Path.chars)

/-- What a reader has to find in a line that is written so. -/
def value (a : Assignment) : LabelFlow.Assignment where
  inputs := a.inputs.values id Name.spelled (a.inputsOpen + 1)
  term := .spelled a.termStart a.term
  outputs := a.outputs.values Path.chars (fun offset p => p.label offset) (a.outputsOpen + 1)
  inputSpan := ⟨a.inputsOpen, a.inputsClose + 1⟩
  labelSpan := ⟨a.termStart, a.outputsClose + 1⟩

end Assignment

end Layout

end LabelFlow
