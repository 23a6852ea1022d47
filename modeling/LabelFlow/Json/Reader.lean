import LabelFlow.Json.Literal

/-!
# Reading JSON

A text is read one character at a time. Characters make lexemes (`Mode.step`) and lexemes make the
value (`Build.take`), whose unfinished containers are kept in a list, so values may nest to any
depth. `Json.parse?` reads a text that is one value, blanks around it aside.
-/

set_option autoImplicit false

namespace LabelFlow.Json

/-- Punctuation, or a value that is no container. -/
inductive Lexeme
  | openBracket | closeBracket | openBrace | closeBrace | comma | colon
  | scalar (value : Json)

/-- The lexeme of a punctuation character. -/
def Lexeme.ofChar? (c : Char) : Option Lexeme :=
  if c = '[' then some .openBracket
  else if c = ']' then some .closeBracket
  else if c = '\x7b' then some .openBrace
  else if c = '\x7d' then some .closeBrace
  else if c = ',' then some .comma
  else if c = ':' then some .colon
  else none

/-- What the characters since the last lexeme are. -/
inductive Mode
  /-- Blanks at most. -/
  | between
  /-- The beginning of a word, the last character first. -/
  | word (reversed : List Char)
  /-- The inside of a string, the last character first; `escaped` after a backslash. -/
  | inside (reversed : List Char) (escaped : Bool)

/-- Space, tab, line feed and carriage return. -/
def isSpace (c : Char) : Bool := c == ' ' || c == '\t' || c == '\n' || c == '\r'

/-- Words are made of letters, digits, signs and points. -/
def isWordChar (c : Char) : Bool := c.isAlphanum || c == '+' || c == '-' || c == '.'

namespace Mode

/-- Begins with a character after a lexeme. -/
def start (c : Char) : Option (Mode × List Lexeme) :=
  if isSpace c then some (.between, [])
  else if c = '"' then some (.inside [] false, [])
  else if isWordChar c then some (.word [c], [])
  else (Lexeme.ofChar? c).map fun l => (.between, [l])

/-- Takes a character, with the lexemes that end with it. -/
def step (m : Mode) (c : Char) : Option (Mode × List Lexeme) :=
  match m with
  | .between => start c
  | .word reversed =>
    if isWordChar c then some (.word (c :: reversed), [])
    else
      match ofWord? reversed.reverse, start c with
      | some value, some (next, ls) => some (next, .scalar value :: ls)
      | _, _ => none
  | .inside reversed true => some (.inside (c :: reversed) false, [])
  | .inside reversed false =>
    if c = '"' then (ofInside? reversed.reverse).map fun value => (.between, [.scalar value])
    else some (.inside (c :: reversed) (c == '\\'), [])

/-- The last lexeme, if the text may end here. -/
def finish : Mode → Option (List Lexeme)
  | .between => some []
  | .word reversed => (ofWord? reversed.reverse).map fun value => [.scalar value]
  | .inside _ _ => none

end Mode

/-- A container that is read in part; what it has so far stands last first. -/
inductive Frame
  | item (done : List Json)
  | member (done : List (Option String × Json)) (key : Option String)

/-- What the next lexeme has to be. -/
inductive Focus
  | value
  /-- A value or the end of the array that has just begun. -/
  | firstItem
  /-- A key or the end of the object that has just begun. -/
  | firstKey
  | key (done : List (Option String × Json))
  | colon (done : List (Option String × Json)) (key : Option String)
  /-- What follows a finished value. -/
  | complete (value : Json)

/-- A value read in part: the containers around the place, the innermost first, and what is
expected there. -/
structure Build where
  outer : List Frame
  focus : Focus

namespace Build

/-- Before the first lexeme. -/
def start : Build := ⟨[], .value⟩

/-- Begins a value. -/
def begin (outer : List Frame) : Lexeme → Option Build
  | .scalar value => some ⟨outer, .complete value⟩
  | .openBracket => some ⟨outer, .firstItem⟩
  | .openBrace => some ⟨outer, .firstKey⟩
  | _ => none

/-- Goes on after a finished value. -/
def resume (outer : List Frame) (value : Json) (l : Lexeme) : Option Build :=
  match outer, l with
  | .item done :: outer, .comma => some ⟨.item (value :: done) :: outer, .value⟩
  | .item done :: outer, .closeBracket =>
    some ⟨outer, .complete (.array (value :: done).reverse)⟩
  | .member done key :: outer, .comma => some ⟨outer, .key ((key, value) :: done)⟩
  | .member done key :: outer, .closeBrace =>
    some ⟨outer, .complete (.object ((key, value) :: done).reverse)⟩
  | _, _ => none

/-- Takes the next lexeme. -/
def take (b : Build) (l : Lexeme) : Option Build :=
  match b.focus with
  | .value => begin b.outer l
  | .firstItem =>
    match l with
    | .closeBracket => some ⟨b.outer, .complete (.array [])⟩
    | l => begin (.item [] :: b.outer) l
  | .firstKey =>
    match l with
    | .closeBrace => some ⟨b.outer, .complete (.object [])⟩
    | .scalar (.string key) => some ⟨b.outer, .colon [] key⟩
    | _ => none
  | .key done =>
    match l with
    | .scalar (.string key) => some ⟨b.outer, .colon done key⟩
    | _ => none
  | .colon done key =>
    match l with
    | .colon => some ⟨.member done key :: b.outer, .value⟩
    | _ => none
  | .complete value => resume b.outer value l

/-- The finished value, if nothing is left open. -/
def finish (b : Build) : Option Json :=
  match b.focus, b.outer with
  | .complete value, [] => some value
  | _, _ => none

end Build

/-- A text read in part. -/
structure Reader where
  mode : Mode
  build : Build

namespace Reader

/-- Before the first character. -/
def start : Reader := ⟨.between, .start⟩

/-- Takes the next character. -/
def step (r : Reader) (c : Char) : Option Reader := do
  let (mode, ls) ← r.mode.step c
  let build ← ls.foldlM Build.take r.build
  some ⟨mode, build⟩

/-- The value of a text that ends here. -/
def finish (r : Reader) : Option Json := do
  let ls ← r.mode.finish
  let build ← ls.foldlM Build.take r.build
  build.finish

end Reader

/-- The value that a text denotes. -/
def parse? (text : String) : Option Json :=
  text.toList.foldlM Reader.step Reader.start >>= Reader.finish

end LabelFlow.Json
