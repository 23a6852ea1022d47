import LabelFlow.Proofs.Lexing
import LabelFlow.Validation.Assignment

/-!
# Well nested parentheses

`Assignment.parenFinding_eq_none_iff`: counting the open parentheses of a line reports nothing
exactly if its parentheses are well nested. `Text.Closes` is the invariant of the count, over the
parentheses among any tokens (`Token.parens`); those of a line are the parentheses of its text.
-/

set_option autoImplicit false

namespace LabelFlow

namespace Text

/-- Either parenthesis. -/
def isParen (c : Char) : Bool := c == '(' || c == ')'

/-- Parentheses that nest: nothing, or a group with a nest in it and a nest after it. -/
inductive Nest : List Char → Prop
  | nil : Nest []
  | group {a b : List Char} (inner : Nest a) (after : Nest b) : Nest ('(' :: (a ++ ')' :: b))

/-- The parentheses of a text are well nested, whatever else stands between them. -/
def WellNested (cs : List Char) : Prop := Nest (cs.filter isParen)

/-- Parentheses that close a number of groups, with nests before, between and after them. -/
def Closes : Nat → List Char → Prop
  | 0, cs => Nest cs
  | depth + 1, cs => ∃ a b, Nest a ∧ Closes depth b ∧ cs = a ++ ')' :: b

namespace Closes

theorem nil_iff {depth : Nat} : Closes depth [] ↔ depth = 0 := by
  cases depth with
  | zero => exact ⟨fun _ => rfl, fun _ => Nest.nil⟩
  | succ depth =>
    refine ⟨fun h => ?_, fun h => absurd h (by omega)⟩
    obtain ⟨a, b, -, -, h⟩ := h
    cases a <;> cases h

/-- An opening parenthesis is closed by one more closing one. -/
theorem open_iff {depth : Nat} {cs : List Char} :
    Closes depth ('(' :: cs) ↔ Closes (depth + 1) cs := by
  cases depth with
  | zero =>
    refine ⟨fun h => ?_, fun h => ?_⟩
    · cases h with
      | group inner after => exact ⟨_, _, inner, after, rfl⟩
    · obtain ⟨a, b, ha, hb, rfl⟩ := h
      exact Nest.group ha hb
  | succ depth =>
    refine ⟨fun h => ?_, fun h => ?_⟩
    · obtain ⟨a, b, ha, hb, h⟩ := h
      cases ha with
      | nil => cases h
      | group inner after =>
        refine ⟨_, _, inner, ⟨_, b, after, hb, rfl⟩, ?_⟩
        simpa using h
    · obtain ⟨a, _, ha, ⟨a', b, ha', hb, rfl⟩, rfl⟩ := h
      exact ⟨_, b, Nest.group ha ha', hb, by simp⟩

theorem close_zero {cs : List Char} : ¬ Closes 0 (')' :: cs) := nofun

theorem close_succ_iff {depth : Nat} {cs : List Char} :
    Closes (depth + 1) (')' :: cs) ↔ Closes depth cs := by
  refine ⟨fun h => ?_, fun h => ⟨[], cs, .nil, h, rfl⟩⟩
  obtain ⟨a, b, ha, hb, h⟩ := h
  cases ha with
  | nil =>
    obtain ⟨-, rfl⟩ := List.cons.inj h
    exact hb
  | group inner after => cases h

end Closes

end Text

namespace Kind

theorem isParen_text {c : Char} : Text.isParen c = (ofChar c).isParen := by
  rw [Bool.eq_iff_iff, Text.isParen, Bool.or_eq_true, beq_iff_eq, beq_iff_eq]
  rw [← ofChar_eq_iff (k := .openParen) rfl, ← ofChar_eq_iff (k := .closeParen) rfl]
  cases ofChar c <;> simp [isParen]

/-- The parenthesis that a token of a kind is. -/
def paren? : Kind → Option Char
  | .openParen => some '('
  | .closeParen => some ')'
  | _ => none

theorem paren?_eq_none {k : Kind} (h : k.isParen = false) : k.paren? = none := by
  cases k <;> first | rfl | cases h

end Kind

namespace Token

/-- The parentheses among some tokens, without what stands between them. -/
def parens (ts : List Token) : List Char := ts.filterMap fun t => t.kind.paren?

variable {t : Token}

@[simp] theorem parens_nil : parens [] = [] := rfl

theorem parens_append (a b : List Token) : parens (a ++ b) = parens a ++ parens b :=
  List.filterMap_append

theorem parens_open (h : t.kind = .openParen) (ts : List Token) :
    parens (t :: ts) = '(' :: parens ts :=
  List.filterMap_cons_some (by rw [h]; rfl)

theorem parens_close (h : t.kind = .closeParen) (ts : List Token) :
    parens (t :: ts) = ')' :: parens ts :=
  List.filterMap_cons_some (by rw [h]; rfl)

theorem parens_other (h : t.kind.isParen = false) (ts : List Token) :
    parens (t :: ts) = parens ts :=
  List.filterMap_cons_none (Kind.paren?_eq_none h)

/-- A token opens a group, closes one or is no parenthesis. -/
theorem paren_cases (t : Token) :
    t.kind = .openParen ∨ t.kind = .closeParen ∨ t.kind.isParen = false := by
  cases t.kind <;> simp [Kind.isParen]

/-- The parentheses among the tokens of a text are those of the text. -/
theorem parens_ofText (start : Nat) (cs : List Char) :
    parens (ofText start cs) = cs.filter Text.isParen := by
  refine ofText_induction (motive := fun _ cs ts => parens ts = cs.filter Text.isParen)
    (fun _ => rfl) ?_ start cs
  intro start k x rest _ hk _ hone ih
  have hfilter : ∀ c ∈ x, Text.isParen c = k.isParen := fun c hc => by
    rw [Kind.isParen_text, hk c hc]
  rw [List.filter_append, ← ih]
  by_cases hp : k.isParen = true
  · -- a parenthesis is a token of one character
    have hrun : k.isRun = false := by cases k <;> first | rfl | cases hp
    obtain ⟨c, rfl⟩ := List.length_eq_one_iff.1 (hone hrun)
    have hc := hk c List.mem_cons_self
    rw [List.filter_cons_of_pos ((hfilter c List.mem_cons_self).trans hp), List.filter_nil]
    cases k with
    | openParen =>
      obtain rfl := Kind.eq_of_ofChar (k := .openParen) rfl hc
      rw [parens_open rfl, List.singleton_append]
    | closeParen =>
      obtain rfl := Kind.eq_of_ofChar (k := .closeParen) rfl hc
      rw [parens_close rfl, List.singleton_append]
    | _ => cases hp
  · have hno : x.filter Text.isParen = [] :=
      List.filter_eq_nil_iff.2 fun c hc => by rwa [hfilter c hc]
    rw [parens_other (Bool.eq_false_iff.2 hp), hno, List.nil_append]

end Token

namespace Assignment

variable {t : Token} {ts : List Token}

theorem parenFinding_open (h : t.kind = .openParen) (depth : Nat) :
    parenFinding depth (t :: ts) = parenFinding (depth + 1) ts := by
  simp [parenFinding, h]

theorem parenFinding_close_zero (h : t.kind = .closeParen) :
    parenFinding 0 (t :: ts) = some ⟨.missingOpeningParen, some t.span⟩ := by
  simp [parenFinding, h]

theorem parenFinding_close_succ (h : t.kind = .closeParen) (depth : Nat) :
    parenFinding (depth + 1) (t :: ts) = parenFinding depth ts := by
  simp [parenFinding, h]

/-- The count goes on behind a token that is no parenthesis. -/
theorem parenFinding_of_not_paren (h : t.kind.isParen = false) (depth : Nat) (ts : List Token) :
    parenFinding depth (t :: ts) = parenFinding depth ts := by
  cases hk : t.kind with
  | openParen => rw [hk] at h; cases h
  | closeParen => rw [hk] at h; cases h
  | _ => simp [parenFinding, hk]

/-- Nothing is reported exactly if the rest of the line closes what is open. -/
theorem parenFinding_eq_none_iff_closes {depth : Nat} :
    parenFinding depth ts = none ↔ Text.Closes depth (Token.parens ts) := by
  induction ts generalizing depth with
  | nil =>
    rw [Token.parens_nil, Text.Closes.nil_iff, parenFinding]
    by_cases h : depth = 0 <;> simp [h]
  | cons t ts ih =>
    obtain hopen | hclose | hother := t.paren_cases
    · rw [parenFinding_open hopen, Token.parens_open hopen, Text.Closes.open_iff, ih]
    · rw [Token.parens_close hclose]
      cases depth with
      | zero => simp [parenFinding_close_zero hclose, Text.Closes.close_zero]
      | succ depth => rw [parenFinding_close_succ hclose, Text.Closes.close_succ_iff, ih]
    · rw [parenFinding_of_not_paren hother, Token.parens_other hother, ih]

/-- No parenthesis of a line is blamed exactly if they are well nested. -/
theorem parenFinding_eq_none_iff {line : String} :
    parenFinding 0 (Token.ofLine line) = none ↔ Text.WellNested line.toList := by
  rw [parenFinding_eq_none_iff_closes, Token.ofLine_eq, Token.parens_ofText]
  rfl

end Assignment

end LabelFlow
