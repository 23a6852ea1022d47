import LabelFlow.Diagnostic.Context

/-!
# Message templates

A template is text with placeholders, a key between braces. `Template.parts` cuts it from left to
right: a placeholder runs from an opening brace to the next closing one, and a brace that is never
closed is text, with all that follows. `Template.render` fills in the placeholders whose keys have a
value; what is filled in is not read again.
-/

set_option autoImplicit false

namespace LabelFlow.Template

/-- A character of a template that stands for itself, or a placeholder with its key. -/
inductive Part
  | char (c : Char)
  | placeholder (key : List Char)
deriving DecidableEq, Repr

/-- The characters that a part is written with. -/
def Part.source : Part → List Char
  | .char c => [c]
  | .placeholder key => '\x7b' :: key ++ ['\x7d']

/-- The parts of a template. `opened` holds the characters since an opening brace, the last one
first. -/
def cut (opened : Option (List Char)) : List Char → List Part
  | [] =>
    match opened with
    | none => []
    | some key => .char '\x7b' :: key.reverse.map .char
  | c :: cs =>
    match opened with
    | none => if c = '\x7b' then cut (some []) cs else .char c :: cut none cs
    | some key =>
      if c = '\x7d' then .placeholder key.reverse :: cut none cs else cut (some (c :: key)) cs

/-- The parts of a template, from left to right. -/
def parts (template : List Char) : List Part := cut none template

/-- What a part becomes. -/
def fill (context : Context) : Part → List Char
  | .char c => [c]
  | .placeholder key =>
    match context.find? (.ofList key) with
    | some value => value.toList
    | none => (Part.placeholder key).source

/-- The text of a template in a context. -/
def render (context : Context) (template : String) : String :=
  .ofList ((parts template.toList).flatMap (fill context))

end LabelFlow.Template
