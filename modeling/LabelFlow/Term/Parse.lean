import LabelFlow.Term.Symbol

/-!
# Reading a term as a tree

The second step of reading a term builds its tree from its symbols. Conjunction binds tighter than
disjunction and both nest to the left; a negation reaches as far as its operand. The reader takes
one symbol at a time (`step`) and keeps what is unfinished at each level of parentheses (`Level`),
so a term may nest to any depth.
-/

set_option autoImplicit false

namespace LabelFlow.Term

/-- What waits for an operand at one level of parentheses: the finished left side of a `||`, the
finished left side of a `&&`, and negations, the innermost first. -/
structure Level where
  disjunct : Option Term
  conjunct : Option Term
  bangs : List Span
deriving DecidableEq, Repr

namespace Level

/-- Nothing waits. -/
def fresh : Level := ⟨none, none, []⟩

end Level

/-- What the next symbol has to be. -/
inductive Focus
  /-- An operand, for this level. -/
  | operand (level : Level)
  /-- An operator or the end of the level: `conjunct` is finished up to here, and `disjunct` is
  the left side of the last `||`. -/
  | operator (disjunct : Option Term) (conjunct : Term)
deriving DecidableEq, Repr

/-- A term read in part: the groups still open, each with the level around it, the innermost
first, and what is expected next. -/
structure State where
  outer : List (Span × Level)
  focus : Focus
deriving DecidableEq, Repr

namespace Level

/-- Completes a level's pending negations and conjunction with an operand. -/
def supply (level : Level) (operand : Term) : Focus :=
  .operator level.disjunct (.chain .and level.conjunct (.negate level.bangs operand))

end Level

namespace State

/-- Before the first symbol. -/
def start : State := ⟨[], .operand .fresh⟩

/-- What stands after an operator position: the end of a group, or of the whole term. -/
def expectedEnd (outer : List (Span × Level)) : Expectation :=
  if outer.isEmpty then .operatorOrEnd else .closeParen

/-- Takes the next symbol. -/
def step (s : State) (symbol : Symbol) : Except TermFault State :=
  match s.focus with
  | .operand level =>
    match symbol with
    | .bang span => .ok ⟨s.outer, .operand { level with bangs := span :: level.bangs }⟩
    | .openParen span => .ok ⟨(span, level) :: s.outer, .operand .fresh⟩
    | .literal value span => .ok ⟨s.outer, level.supply (.literal value span)⟩
    | .access label => .ok ⟨s.outer, level.supply (.access label)⟩
    | .fault error _ true => .error error
    | symbol => .error ⟨.operand, symbol.start⟩
  | .operator disjunct conjunct =>
    match symbol, s.outer with
    | .connective .and _, outer => .ok ⟨outer, .operand ⟨disjunct, some conjunct, []⟩⟩
    | .connective .or _, outer =>
      .ok ⟨outer, .operand ⟨some (.chain .or disjunct conjunct), none, []⟩⟩
    | .closeParen close, (opening, level) :: outer =>
      .ok ⟨outer, level.supply (.group (.chain .or disjunct conjunct) (opening.cover close))⟩
    | symbol, outer => .error ⟨expectedEnd outer, symbol.start⟩

/-- The finished term, if all symbols are taken and the term ends at an offset. -/
def finish (stop : Nat) (s : State) : Except TermFault Term :=
  match s.focus, s.outer with
  | .operator disjunct conjunct, [] => .ok (.chain .or disjunct conjunct)
  | .operator _ _, _ :: _ => .error ⟨.closeParen, stop⟩
  | .operand _, _ => .error ⟨.operand, stop⟩

end State

/-- Builds the tree of a term. -/
def parse (tokens : List Token) : Except TermFault Term :=
  (Symbol.read tokens).foldlM State.step State.start >>= State.finish (Token.stopOr 0 tokens)

end LabelFlow.Term
