import LabelFlow.Label

/-!
# Terms as trees

A term is made of literals, label accesses, negations, conjunctions, disjunctions and groups in
parentheses. `Term.span` is the stretch a term takes up and `Term.accesses` lists its labels from
left to right.
-/

set_option autoImplicit false

namespace LabelFlow

/-- The two binary operators. -/
inductive Connective
  | and | or
deriving DecidableEq, Repr

/-- A boolean term. Leaves, negations and groups carry their spans. -/
inductive Term
  | literal (value : Bool) (span : Span)
  | access (label : Access)
  | not (operand : Term) (span : Span)
  | binary (op : Connective) (lhs rhs : Term)
  | group (inner : Term) (span : Span)
deriving DecidableEq, Repr

namespace Term

/-- The stretch from the first to the last byte of a term. -/
def span : Term → Span
  | .literal _ s => s
  | .access a => a.span
  | .not _ s => s
  | .binary _ lhs rhs => lhs.span.cover rhs.span
  | .group _ s => s

/-- The label accesses, from left to right. -/
def accesses : Term → List Access
  | .literal _ _ => []
  | .access a => [a]
  | .not operand _ => operand.accesses
  | .binary _ lhs rhs => lhs.accesses ++ rhs.accesses
  | .group inner _ => inner.accesses

/-- Joins a finished left operand, if there is one, with the right one. -/
def chain (op : Connective) : Option Term → Term → Term
  | none, rhs => rhs
  | some lhs, rhs => .binary op lhs rhs

/-- Puts negations around a term, the innermost first. -/
def negate : List Span → Term → Term
  | [], e => e
  | bang :: bangs, e => negate bangs (.not e (bang.cover e.span))

end Term

end LabelFlow
