/-!
# JSON values

`Json` keeps a value as its text gives it: object members in order and with repeated keys, numbers
as they are written, and strings whose escapes leave half of a surrogate pair as strings without a
text. So a reader that only skips a value never refuses what is syntactically right.

`Json.render` writes a value without blanks. `write` puts the characters of a value in front of
those that follow it, so that nothing is copied on the way out of nested values.
-/

set_option autoImplicit false

namespace LabelFlow

/-- A JSON value. -/
inductive Json
  | null
  | bool (value : Bool)
  /-- A number, as written. -/
  | number (literal : String)
  /-- A string; one with an unpaired surrogate denotes no text. -/
  | string (text : Option String)
  | array (items : List Json)
  | object (members : List (Option String × Json))

namespace Json

/-- A string with a text. -/
def text (s : String) : Json := .string (some s)

/-- A natural number. -/
def natural (n : Nat) : Json := .number n.repr

/-- An object with members whose keys are texts. -/
def record (members : List (String × Json)) : Json :=
  .object (members.map fun m => (some m.1, m.2))

/-! ## Writing -/

/-- The character within a string literal. The usual control characters have escapes of two
characters, the others are written by their code point. -/
def escape (c : Char) : List Char :=
  if c = '"' then ['\\', '"']
  else if c = '\\' then ['\\', '\\']
  else if c = '\x08' then ['\\', 'b']
  else if c = '\x0c' then ['\\', 'f']
  else if c = '\n' then ['\\', 'n']
  else if c = '\r' then ['\\', 'r']
  else if c = '\t' then ['\\', 't']
  else if c.toNat < 0x20 then
    ['\\', 'u', '0', '0', Nat.digitChar (c.toNat / 16), Nat.digitChar (c.toNat % 16)]
  else [c]

/-- A string literal. A string without a text is written as half of a surrogate pair. -/
def quote : Option String → List Char
  | some text => '"' :: text.toList.flatMap escape ++ ['"']
  | none => "\"\\ud800\"".toList

mutual

/-- The characters of a value, and then `rest`. -/
def write : Json → List Char → List Char
  | .null, rest => "null".toList ++ rest
  | .bool true, rest => "true".toList ++ rest
  | .bool false, rest => "false".toList ++ rest
  | .number literal, rest => literal.toList ++ rest
  | .string text, rest => quote text ++ rest
  | .array items, rest => '[' :: writeItems items (']' :: rest)
  | .object members, rest => '\x7b' :: writeMembers members ('\x7d' :: rest)

/-- Values between commas, and then `rest`. -/
def writeItems : List Json → List Char → List Char
  | [], rest => rest
  | [v], rest => write v rest
  | v :: vs, rest => write v (',' :: writeItems vs rest)

/-- Keys and values between commas, and then `rest`. -/
def writeMembers : List (Option String × Json) → List Char → List Char
  | [], rest => rest
  | [(key, v)], rest => quote key ++ ':' :: write v rest
  | (key, v) :: ms, rest => quote key ++ ':' :: write v (',' :: writeMembers ms rest)

end

/-- The text of a value. -/
def render (v : Json) : String := .ofList (v.write [])

end Json

end LabelFlow
