import LabelFlow.Proofs.Grouping
import LabelFlow.Proofs.Lexing
import LabelFlow.Term.Parse

/-!
# Terms at another place

Tokens that stand so many bytes later (`Token.shift`) are read with the same outcome, so many bytes
later: the symbols (`Symbol.read_shift`), the label accesses (`Access.ofTokens_shift`) and the tree
(`Term.parse_shift`). Neither reader compares offsets, it only hands on those of its tokens and
covers them with spans, which does not depend on where they begin (`Span.cover_shift`). The one
offset that does not come from a token is 0, where a term without tokens is refused.
-/

set_option autoImplicit false

namespace LabelFlow

/-! ## What is shifted -/

/-- The same stretch, `n` bytes later. -/
def Span.shift (n : Nat) (s : Span) : Span := ⟨s.start + n, s.stop + n⟩

def Token.shift (n : Nat) (t : Token) : Token := { t with start := t.start + n }

def Name.shift (n : Nat) (name : Name) : Name := { name with span := name.span.shift n }

def Access.shift (n : Nat) (a : Access) : Access := ⟨a.labelType.shift n, a.value.shift n⟩

def TermFault.shift (n : Nat) (e : TermFault) : TermFault := { e with offset := e.offset + n }

def Symbol.shift (n : Nat) : Symbol → Symbol
  | .bang s => .bang (s.shift n)
  | .openParen s => .openParen (s.shift n)
  | .closeParen s => .closeParen (s.shift n)
  | .connective op start => .connective op (start + n)
  | .literal value s => .literal value (s.shift n)
  | .access a => .access (a.shift n)
  | .fault error start isWord => .fault (error.shift n) (start + n) isWord

def Term.shift (n : Nat) : Term → Term
  | .literal value s => .literal value (s.shift n)
  | .access a => .access (a.shift n)
  | .not operand s => .not (operand.shift n) (s.shift n)
  | .binary op lhs rhs => .binary op (lhs.shift n) (rhs.shift n)
  | .group inner s => .group (inner.shift n) (s.shift n)

/-- What is read or refused, `n` bytes later. -/
def shifted {α : Type} (shift : Nat → α → α) (n : Nat) : Except TermFault α → Except TermFault α
  | .ok a => .ok (shift n a)
  | .error e => .error (e.shift n)

section
variable (n : Nat)

theorem Span.cover_shift (a b : Span) : (a.shift n).cover (b.shift n) = (a.cover b).shift n := by
  simp only [cover, shift, Nat.add_min_add_right, Nat.add_max_add_right]

namespace Token

@[simp] theorem kind_shift (t : Token) : (t.shift n).kind = t.kind := rfl

@[simp] theorem text_shift (t : Token) : (t.shift n).text = t.text := rfl

@[simp] theorem start_shift (t : Token) : (t.shift n).start = t.start + n := rfl

@[simp] theorem stop_shift (t : Token) : (t.shift n).stop = t.stop + n := by
  simp only [stop, start_shift, text_shift]
  omega

@[simp] theorem span_shift (t : Token) : (t.shift n).span = t.span.shift n := by
  rw [span, stop_shift]
  rfl

@[simp] theorem ofToken_shift (t : Token) :
    Name.ofToken (t.shift n) = (Name.ofToken t).shift n := by
  rw [Name.ofToken, span_shift]
  rfl

theorem place_shift (start : Nat) (ls : List Lexeme) :
    place (start + n) ls = (place start ls).map (shift n) := by
  induction ls generalizing start with
  | nil => rfl
  | cons l ls ih =>
    rw [place_cons, place_cons, List.map_cons, ← ih, Nat.add_right_comm]
    rfl

/-- The tokens of a text that begins later. -/
theorem ofText_shift (cs : List Char) : ofText n cs = (ofText 0 cs).map (shift n) := by
  rw [ofText, ← Nat.zero_add n, place_shift, Nat.zero_add]
  rfl

theorem stopOr_shift {ts : List Token} (h : ts ≠ []) :
    stopOr 0 (ts.map (shift n)) = stopOr 0 ts + n := by
  rw [stopOr, stopOr, List.getLast?_map, List.getLast?_eq_some_getLast h]
  exact stop_shift n _

end Token

/-! ## Symbols -/

namespace Symbol

theorem ofWord_shift (t : Token) : ofWord (t.shift n) = (ofWord t).shift n := by
  unfold ofWord
  rw [Token.text_shift, Token.span_shift]
  split <;> rfl

theorem ofAccess_shift (t v : Token) (ts : List Token) :
    ofAccess (t.shift n) (v.shift n) (ts.map (Token.shift n)) = (ofAccess t v ts).shift n := by
  cases ts with
  | nil => simp [ofAccess, shift, Access.shift]
  | cons next ts =>
    rw [List.map_cons, ofAccess, ofAccess, Token.kind_shift]
    split
    · rfl
    · simp [shift, Access.shift]

/-- Which symbols tokens make depends on their kinds and texts, not on where they stand. -/
theorem read_shift (ts : List Token) :
    read (ts.map (Token.shift n)) = (read ts).map (shift n) := by
  fun_induction read ts with
  | case1 => rfl
  | case12 t hk d v rest hd hv ih =>
    -- the kinds of the later tokens are those of `t`, `d` and `v`
    refine (read_access (t := t.shift n) (d := d.shift n) (v := v.shift n) hk hd hv).trans ?_
    rw [ofAccess_shift, ih, List.map_cons]
  | case14 t hk u v rest hu ih =>
    refine (read_word (t := t.shift n) hk (by simpa using hu)).trans ?_
    rw [ofWord_shift, ih, List.map_cons]
  | case16 t hk u hu ih =>
    refine (read_word (t := t.shift n) hk (by simpa using hu)).trans ?_
    rw [ofWord_shift, ih, List.map_cons]
  | case17 t hk =>
    refine (read_word (t := t.shift n) hk (by simp)).trans ?_
    rw [ofWord_shift]
    rfl
  -- a token that is a symbol by itself or with the next one, or a fault
  | _ =>
    rw [List.map_cons, read.eq_def]
    simp_all [shift, TermFault.shift]

theorem accesses_shift (symbols : List Symbol) : accesses (symbols.map (shift n)) =
    shifted (fun n => List.map (Access.shift n)) n (accesses symbols) := by
  induction symbols with
  | nil => rfl
  | cons s symbols ih =>
    rw [List.map_cons]
    cases s with
    | fault error start isWord => rfl
    | access a =>
      simp only [shift, accesses, ih]
      cases accesses symbols <;> rfl
    | _ => exact ih

end Symbol

/-- The label accesses of tokens that stand later. -/
theorem Access.ofTokens_shift (ts : List Token) : ofTokens (ts.map (Token.shift n)) =
    shifted (fun n => List.map (Access.shift n)) n (ofTokens ts) := by
  rw [ofTokens, Symbol.read_shift, Symbol.accesses_shift]
  rfl

/-! ## Trees -/

namespace Term

theorem span_shift (e : Term) : (e.shift n).span = e.span.shift n := by
  induction e with
  | binary op lhs rhs ihl ihr => rw [shift, span, span, ihl, ihr, Span.cover_shift]
  | access a => exact Span.cover_shift n _ _
  | _ => rfl

theorem chain_shift (op : Connective) (lhs : Option Term) (rhs : Term) :
    chain op (lhs.map (shift n)) (rhs.shift n) = (chain op lhs rhs).shift n := by
  cases lhs <;> rfl

theorem negate_shift (bangs : List Span) (e : Term) :
    negate (bangs.map (Span.shift n)) (e.shift n) = (negate bangs e).shift n := by
  induction bangs generalizing e with
  | nil => rfl
  | cons bang bangs ih =>
    have h := ih (.not e (bang.cover e.span))
    rw [shift, ← Span.cover_shift, ← span_shift] at h
    exact h

def Level.shift (level : Level) : Level :=
  ⟨level.disjunct.map (Term.shift n), level.conjunct.map (Term.shift n),
    level.bangs.map (Span.shift n)⟩

def Focus.shift : Focus → Focus
  | .operand level => .operand (level.shift n)
  | .operator disjunct conjunct => .operator (disjunct.map (Term.shift n)) (conjunct.shift n)

def State.shift (s : State) : State :=
  ⟨s.outer.map fun (opening, level) => (opening.shift n, level.shift n), s.focus.shift n⟩

theorem Level.supply_shift (level : Level) (e : Term) :
    (level.shift n).supply (e.shift n) = (level.supply e).shift n := by
  simp only [supply, Focus.shift, Level.shift, negate_shift, chain_shift]

namespace State

/-- An operand completes a shifted level as it does the level. -/
theorem supplied_shift (outer : List (Span × Level)) (level : Level) (e : Term) :
    State.mk (outer.map fun (opening, level) => (opening.shift n, level.shift n))
      ((level.shift n).supply (e.shift n)) = (State.mk outer (level.supply e)).shift n := by
  rw [Level.supply_shift]
  rfl

/-- A step from a shifted state. -/
theorem step_shift (s : State) (symbol : Symbol) :
    (s.shift n).step (symbol.shift n) = shifted shift n (s.step symbol) := by
  obtain ⟨outer, focus⟩ := s
  cases focus with
  | operand level =>
    cases symbol with
    | literal value span =>
      exact congrArg Except.ok (supplied_shift n outer level (.literal value span))
    | access a => exact congrArg Except.ok (supplied_shift n outer level (.access a))
    | fault error start isWord => cases isWord <;> rfl
    | _ => rfl
  | operator disjunct conjunct =>
    cases symbol with
    | connective op start =>
      cases op with
      | and => rfl
      | or =>
        have h := chain_shift n .or disjunct conjunct
        simp only [step, State.shift, Focus.shift, Symbol.shift, h, shifted, Level.shift]
        rfl
    | closeParen close =>
      cases outer with
      | nil => rfl
      | cons group outer =>
        obtain ⟨opening, level⟩ := group
        have h := supplied_shift n outer level
          (.group (.chain .or disjunct conjunct) (opening.cover close))
        rw [Term.shift, ← chain_shift, ← Span.cover_shift] at h
        exact congrArg Except.ok h
    | _ => cases outer <;> rfl

theorem steps_shift (s : State) (symbols : List Symbol) :
    (symbols.map (Symbol.shift n)).foldlM step (s.shift n) =
      shifted shift n (symbols.foldlM step s) := by
  induction symbols generalizing s with
  | nil => rfl
  | cons symbol symbols ih =>
    rw [List.map_cons, List.foldlM_cons, List.foldlM_cons, step_shift]
    cases s.step symbol with
    | error e => rfl
    | ok s' => exact ih s'

theorem finish_shift (stop : Nat) (s : State) :
    (s.shift n).finish (stop + n) = shifted Term.shift n (s.finish stop) := by
  obtain ⟨outer, focus⟩ := s
  cases focus with
  | operand level => rfl
  | operator disjunct conjunct =>
    cases outer with
    | nil => exact congrArg Except.ok (chain_shift n .or disjunct conjunct)
    | cons group outer => rfl

end State

/-- The tree of tokens that stand later. -/
theorem parse_shift {ts : List Token} (h : ts ≠ []) :
    parse (ts.map (Token.shift n)) = shifted shift n (parse ts) := by
  have hsteps := State.steps_shift n .start (Symbol.read ts)
  rw [parse, parse, Symbol.read_shift, Token.stopOr_shift n h]
  rw [show State.shift n .start = .start from rfl] at hsteps
  rw [hsteps]
  cases (Symbol.read ts).foldlM State.step State.start with
  | error e => rfl
  | ok s => exact s.finish_shift n _

end Term

end

end LabelFlow
