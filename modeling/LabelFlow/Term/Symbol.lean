import LabelFlow.Term

/-!
# Symbols of a term

A term is read in two steps. The first one, `Symbol.read`, groups the tokens into symbols:
operators, literals, label accesses and parentheses. Tokens that make no symbol become a
`Symbol.fault`, which records what was expected. `Access.ofTokens` asks for no more than this step:
any sequence of symbols passes, and the result is its label accesses.
-/

set_option autoImplicit false

namespace LabelFlow

/-- What was looked for where a term stops making sense. -/
inductive Expectation
  | operand | operatorOrEnd | closeParen | operandWord | labelValue | accessEnd
  | disjunction | conjunction | termToken
deriving DecidableEq, Repr

namespace Expectation

/-- The wording of an expectation. -/
def text : Expectation → String
  | .operand => "operand"
  | .operatorOrEnd => "operator or end of term"
  | .closeParen => "')'"
  | .operandWord => "TRUE, FALSE or a label access"
  | .labelValue => "label value"
  | .accessEnd => "end of label access"
  | .disjunction => "'||'"
  | .conjunction => "'&&'"
  | .termToken => "term token"

end Expectation

/-- Why a term was refused, and the byte offset of the place. -/
structure TermFault where
  expected : Expectation
  offset : Nat
deriving DecidableEq, Repr

/-- The message of a refusal. -/
def TermFault.message (e : TermFault) : String := s!"expected {e.expected.text} at byte {e.offset}"

/-- A unit of a term. -/
inductive Symbol
  | bang (span : Span)
  | openParen (span : Span)
  | closeParen (span : Span)
  | connective (op : Connective) (start : Nat)
  | literal (value : Bool) (span : Span)
  | access (label : Access)
  /-- Tokens that make no symbol, from the offset `start` on. Those that begin with a word
  (`isWord`) are a spoilt operand. -/
  | fault (error : TermFault) (start : Nat) (isWord : Bool)
deriving DecidableEq, Repr

namespace Symbol

/-- The offset of the first token. -/
def start : Symbol → Nat
  | .bang s => s.start
  | .openParen s => s.start
  | .closeParen s => s.start
  | .connective _ start => start
  | .literal _ s => s.start
  | .access a => a.labelType.span.start
  | .fault _ start _ => start

/-- The words that are literals. -/
def literalValue? (word : String) : Option Bool :=
  if word = "TRUE" then some true else if word = "FALSE" then some false else none

/-- The symbol that a word makes when no dot follows it. -/
def ofWord (t : Token) : Symbol :=
  match literalValue? t.text with
  | some value => .literal value t.span
  | none => .fault ⟨.operandWord, t.start⟩ t.start true

/-- The symbol that a word, a dot and a word make in front of `rest`: a label has no third part. -/
def ofAccess (labelType value : Token) (rest : List Token) : Symbol :=
  match rest with
  | next :: _ =>
    if next.kind = .dot then .fault ⟨.accessEnd, next.start⟩ labelType.start true
    else .access ⟨.ofToken labelType, .ofToken value⟩
  | [] => .access ⟨.ofToken labelType, .ofToken value⟩

/-- Groups tokens into symbols. Only the first fault counts: what follows it is read on from an
arbitrary place. -/
def read : List Token → List Symbol
  | [] => []
  | t :: rest =>
    match t.kind with
    | .blank => read rest
    | .bang => .bang t.span :: read rest
    | .openParen => .openParen t.span :: read rest
    | .closeParen => .closeParen t.span :: read rest
    | .pipe =>
      match rest with
      | next :: more =>
        if next.kind = .pipe then .connective .or t.start :: read more
        else .fault ⟨.disjunction, t.start⟩ t.start false :: read (next :: more)
      | [] => [.fault ⟨.disjunction, t.start⟩ t.start false]
    | .amp =>
      match rest with
      | next :: more =>
        if next.kind = .amp then .connective .and t.start :: read more
        else .fault ⟨.conjunction, t.start⟩ t.start false :: read (next :: more)
      | [] => [.fault ⟨.conjunction, t.start⟩ t.start false]
    | .word =>
      match rest with
      | next :: value :: more =>
        if next.kind = .dot then
          if value.kind = .word then ofAccess t value more :: read more
          else .fault ⟨.labelValue, value.start⟩ t.start true :: read (value :: more)
        else ofWord t :: read (next :: value :: more)
      | [next] =>
        if next.kind = .dot then [.fault ⟨.labelValue, next.stop⟩ t.start true]
        else ofWord t :: read [next]
      | [] => [ofWord t]
    | _ => .fault ⟨.termToken, t.start⟩ t.start false :: read rest

/-- The label accesses of symbols without a fault, or the first fault. -/
def accesses : List Symbol → Except TermFault (List Access)
  | [] => .ok []
  | .fault error _ _ :: _ => .error error
  | .access a :: rest => (accesses rest).map (a :: ·)
  | _ :: rest => accesses rest

end Symbol

/-- Checks that tokens group into symbols and lists the label accesses, from left to right.
Operators and parentheses need not nest. -/
def Access.ofTokens (tokens : List Token) : Except TermFault (List Access) :=
  Symbol.accesses (Symbol.read tokens)

end LabelFlow
