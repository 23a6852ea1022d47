import LabelFlow.Text.Pieces

/-!
# Text of a behavior

Character classes (`isWord` and `isBlank` of the grammar, `isWhite` of all scripts), the length of a
text in the bytes of its UTF-8 form (`width`), the column of a byte offset (`column`: the characters
that end at or before it) and the lines of a text (`lines`: the stretches between line feeds, so
there is always one).
-/

set_option autoImplicit false

namespace LabelFlow.Text

/-- A word is written with the letters and digits of ASCII and the underscore. -/
def isWord (c : Char) : Bool := c.isAlphanum || c == '_'

/-- Space, tab, line feed, form feed and carriage return. -/
def isBlank (c : Char) : Bool :=
  c == ' ' || c == '\t' || c == '\n' || c == '\x0c' || c == '\r'

/-- White space of any script. -/
def isWhite (c : Char) : Bool :=
  let n := c.toNat
  (0x9 ≤ n && n ≤ 0xD) || n == 0x20 || n == 0x85 || n == 0xA0 || n == 0x1680 ||
    (0x2000 ≤ n && n ≤ 0x200A) || n == 0x2028 || n == 0x2029 || n == 0x202F || n == 0x205F ||
    n == 0x3000

/-- The number of bytes of the UTF-8 form. -/
def width (cs : List Char) : Nat := cs.foldr (fun c n => c.utf8Size + n) 0

@[simp] theorem width_nil : width [] = 0 := rfl

@[simp] theorem width_cons (c : Char) (cs : List Char) :
    width (c :: cs) = c.utf8Size + width cs := rfl

@[simp] theorem width_append (a b : List Char) : width (a ++ b) = width a + width b := by
  induction a with
  | nil => simp
  | cons c a ih => simp [ih, Nat.add_assoc]

/-- The number of characters whose UTF-8 form ends at or before a byte offset. -/
def column : List Char → Nat → Nat
  | [], _ => 0
  | c :: cs, offset =>
    if c.utf8Size ≤ offset then column cs (offset - c.utf8Size) + 1 else 0

/-- The lines of a text. A carriage return belongs to its line. -/
def lines (text : String) : List String :=
  (Pieces.cut (· == '\n') text.toList).stretches.map String.ofList

end LabelFlow.Text
