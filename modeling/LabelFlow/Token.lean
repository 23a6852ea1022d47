import LabelFlow.Span

/-!
# Tokens of a line

A line is cut into lexemes (`Lexeme.ofText`): words and blank stretches as long as they can be,
every other character alone. `Token.ofLine` gives each lexeme its byte offset in the line.
-/

set_option autoImplicit false

namespace LabelFlow

/-- The kinds of tokens. -/
inductive Kind
  | word | pipe | amp | bang | dot | comma | semicolon
  | openParen | closeParen | openBrace | closeBrace | blank | other
deriving DecidableEq, Repr

namespace Kind

/-- The kind of token a character belongs to. -/
def ofChar (c : Char) : Kind :=
  if Text.isWord c then .word
  else if Text.isBlank c then .blank
  else if c = '|' then .pipe
  else if c = '&' then .amp
  else if c = '!' then .bang
  else if c = '.' then .dot
  else if c = ',' then .comma
  else if c = ';' then .semicolon
  else if c = '(' then .openParen
  else if c = ')' then .closeParen
  else if c = '\x7b' then .openBrace
  else if c = '\x7d' then .closeBrace
  else .other

/-- Neighbouring characters of such a kind make one token. -/
def isRun : Kind → Bool
  | .word | .blank => true
  | _ => false

/-- An identifier is made of words and pipes. -/
def isIdentPart : Kind → Bool
  | .word | .pipe => true
  | _ => false

/-- Either parenthesis. -/
def isParen : Kind → Bool
  | .openParen | .closeParen => true
  | _ => false

/-- What may stand in a term, well formed or not. -/
def isTermPart : Kind → Bool
  | .blank | .bang | .word | .dot | .pipe | .amp | .openParen | .closeParen => true
  | _ => false

end Kind

/-- A token's characters, before it is placed in its line. -/
structure Lexeme where
  kind : Kind
  text : List Char
deriving DecidableEq, Repr

namespace Lexeme

/-- Puts a character in front: it joins a run of its own kind and otherwise stands alone. -/
def push (c : Char) : List Lexeme → List Lexeme
  | [] => [⟨.ofChar c, [c]⟩]
  | l :: ls =>
    if l.kind.isRun && l.kind == .ofChar c then ⟨l.kind, c :: l.text⟩ :: ls
    else ⟨.ofChar c, [c]⟩ :: l :: ls

/-- The lexemes of a text, in order. -/
def ofText (cs : List Char) : List Lexeme := cs.foldr push []

@[simp] theorem ofText_nil : ofText [] = [] := rfl

@[simp] theorem ofText_cons (c : Char) (cs : List Char) : ofText (c :: cs) = push c (ofText cs) :=
  rfl

theorem flatMap_text_push (c : Char) (ls : List Lexeme) :
    (push c ls).flatMap text = c :: ls.flatMap text := by
  cases ls with
  | nil => rfl
  | cons l ls =>
    rw [push]
    split <;> simp

/-- The lexemes of a text lose none of its characters. -/
theorem flatMap_text_ofText (cs : List Char) : (ofText cs).flatMap text = cs := by
  induction cs with
  | nil => rfl
  | cons c cs ih => rw [ofText_cons, flatMap_text_push, ih]

theorem forall_push {P : Lexeme → Prop} {c : Char} {ls : List Lexeme}
    (single : P ⟨.ofChar c, [c]⟩)
    (joined : ∀ l : Lexeme, P l → l.kind.isRun = true → l.kind = .ofChar c →
      P ⟨l.kind, c :: l.text⟩)
    (h : ∀ l ∈ ls, P l) : ∀ l ∈ push c ls, P l := by
  cases ls with
  | nil => simpa [push] using single
  | cons l ls =>
    obtain ⟨hl, hls⟩ := List.forall_mem_cons.1 h
    rw [push]
    split
    · rename_i hrun
      simp only [Bool.and_eq_true, beq_iff_eq] at hrun
      exact List.forall_mem_cons.2 ⟨joined l hl hrun.1 hrun.2, hls⟩
    · exact List.forall_mem_cons.2 ⟨single, h⟩

/-- Every lexeme has a character, and all its characters are of its kind. -/
theorem kind_of_mem_ofText {cs : List Char} :
    ∀ l ∈ ofText cs, l.text ≠ [] ∧ ∀ c ∈ l.text, Kind.ofChar c = l.kind := by
  induction cs with
  | nil => simp
  | cons c cs ih =>
    rw [ofText_cons]
    refine forall_push (by simp) (fun l hl _ hk => ⟨by simp, fun x hx => ?_⟩) ih
    rcases List.mem_cons.1 hx with rfl | hx
    · exact hk.symm
    · exact hl.2 x hx

end Lexeme

/-- A lexeme at its byte offset in a line. -/
structure Token where
  kind : Kind
  text : String
  start : Nat
deriving DecidableEq, Repr

namespace Token

/-- The offset just after the token. -/
def stop (t : Token) : Nat := t.start + Text.width t.text.toList

/-- The bytes of the token. -/
def span (t : Token) : Span := ⟨t.start, t.stop⟩

/-- A word or a pipe. -/
def isIdentPart (t : Token) : Bool := t.kind.isIdentPart

/-- A stretch of whitespace. -/
def isBlank (t : Token) : Bool := t.kind == .blank

/-- A parenthesis. -/
def isParen (t : Token) : Bool := t.kind.isParen

/-- A token of the alphabet of terms. -/
def isTermPart (t : Token) : Bool := t.kind.isTermPart

/-- Gives lexemes their offsets, the first one at `start`. -/
def place (start : Nat) : List Lexeme → List Token
  | [] => []
  | l :: ls => ⟨l.kind, .ofList l.text, start⟩ :: place (start + Text.width l.text) ls

@[simp] theorem place_nil (start : Nat) : place start [] = [] := rfl

@[simp] theorem place_cons (start : Nat) (l : Lexeme) (ls : List Lexeme) :
    place start (l :: ls) =
      ⟨l.kind, .ofList l.text, start⟩ :: place (start + Text.width l.text) ls := rfl

/-- Placing starts afresh after a front part, at the offset where that part ends. -/
theorem place_append (start : Nat) (a b : List Lexeme) :
    place start (a ++ b) =
      place start a ++ place (start + Text.width (a.flatMap Lexeme.text)) b := by
  induction a generalizing start with
  | nil => simp
  | cons l ls ih => simp [ih, Nat.add_assoc]

/-- The tokens of a line. -/
def ofLine (line : String) : List Token := place 0 (Lexeme.ofText line.toList)

/-- The characters of a stretch of tokens. -/
def textOf (tokens : List Token) : String :=
  .ofList (tokens.flatMap fun t => t.text.toList)

/-- The offset after the last token, or `fallback` if there are none. -/
def stopOr (fallback : Nat) (tokens : List Token) : Nat :=
  (tokens.getLast?.map stop).getD fallback

end Token

end LabelFlow
