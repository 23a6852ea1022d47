import LabelFlow.Text

/-!
# Spans

A `Span` is a stretch of one line, given by byte offsets. `ofBounds` refuses bounds that end
before they start, `cover` covers two spans, and `columns` turns a span into character columns.
-/

set_option autoImplicit false

namespace LabelFlow

/-- The bytes from `start` up to and not including `stop`. -/
structure Span where
  start : Nat
  stop : Nat
deriving DecidableEq, Repr

namespace Span

/-- Bounds that end before they start. -/
structure Inverted where
  start : Nat
  stop : Nat
deriving DecidableEq, Repr

/-- The text of the refusal. -/
def Inverted.message (e : Inverted) : String := s!"Span end ({e.stop}) < start ({e.start})"

/-- The span with the given bounds, if they are in order. -/
def ofBounds (start stop : Nat) : Except Inverted Span :=
  if start ≤ stop then .ok ⟨start, stop⟩ else .error ⟨start, stop⟩

/-- The span of no bytes at an offset. -/
def point (offset : Nat) : Span := ⟨offset, offset⟩

/-- The smallest span that covers both. -/
def cover (a b : Span) : Span := ⟨min a.start b.start, max a.stop b.stop⟩

/-- The number of bytes covered. -/
def length (s : Span) : Nat := s.stop - s.start

/-- Covers no byte. -/
def isEmpty (s : Span) : Bool := s.start == s.stop

/-- The character columns of both ends in a line. -/
def columns (s : Span) (line : String) : Nat × Nat :=
  (Text.column line.toList s.start, Text.column line.toList s.stop)

theorem ofBounds_eq_ok_iff {start stop : Nat} {s : Span} :
    ofBounds start stop = .ok s ↔ start ≤ stop ∧ s = ⟨start, stop⟩ := by
  unfold ofBounds
  by_cases h : start ≤ stop <;> simp [h, eq_comm]

end Span

end LabelFlow
