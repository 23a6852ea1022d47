import LabelFlow.Proofs.Grammar
import LabelFlow.Proofs.Grouping
import LabelFlow.Term.Parse

/-!
# Reading a term is deriving it

`Term.parse_eq_ok_iff`: the tree that is built of tokens in order is the one that the grammar derives
from them. Completeness goes over the derivation: what a rank leaves behind is `Term.Takes`.
Soundness goes over the symbols: `Term.State.Holds` says what has been derived so far, and every step
keeps it.
-/

set_option autoImplicit false

namespace LabelFlow.Term

open LabelFlow.Symbol (Spelled Forms)
open LabelFlow.Token (InOrder)

namespace State

/-- Taking symbols one after the other leads from one state to another. -/
def Steps (s : State) (symbols : List Symbol) (s' : State) : Prop :=
  symbols.foldlM step s = .ok s'

variable {s s' s'' : State} {symbol : Symbol} {symbols more : List Symbol}

theorem Steps.cons (h : s.step symbol = .ok s') (rest : s'.Steps symbols s'') :
    s.Steps (symbol :: symbols) s'' := by
  rw [Steps, List.foldlM_cons, h]
  exact rest

theorem Steps.single (h : s.step symbol = .ok s') : s.Steps [symbol] s' := .cons h rfl

theorem Steps.append (h : s.Steps symbols s') (h' : s'.Steps more s'') :
    s.Steps (symbols ++ more) s'' := by
  rw [Steps, List.foldlM_append, show symbols.foldlM step s = .ok s' from h]
  exact h'

theorem steps_nil_iff : s.Steps [] s' ↔ s = s' := by
  rw [Steps, List.foldlM_nil]
  exact ⟨Except.ok.inj, congrArg _⟩

theorem steps_cons_iff : s.Steps (symbol :: symbols) s'' ↔
    ∃ s', s.step symbol = .ok s' ∧ s'.Steps symbols s'' := by
  refine ⟨fun h => ?_, fun ⟨s', h, rest⟩ => .cons h rest⟩
  rw [Steps, List.foldlM_cons] at h
  cases hs : s.step symbol with
  | error e =>
    rw [hs] at h
    cases h
  | ok s' =>
    rw [hs] at h
    exact ⟨s', rfl, h⟩

/-- A fault stops the reading. -/
theorem isFault_of_step (h : s.step symbol = .ok s') : symbol.isFault = false := by
  cases symbol with
  | fault error start isWord =>
    obtain ⟨outer, focus⟩ := s
    cases focus with
    | operand level => cases isWord <;> cases h
    | operator disjunct conjunct => cases outer <;> cases h
  | _ => rfl

theorem isFault_of_steps (h : s.Steps symbols s') : ∀ x ∈ symbols, x.isFault = false := by
  induction symbols generalizing s with
  | nil => nofun
  | cons symbol symbols ih =>
    obtain ⟨t, hstep, hrest⟩ := steps_cons_iff.1 h
    exact List.forall_mem_cons.2 ⟨isFault_of_step hstep, ih hrest⟩

theorem finish_eq_ok_iff {stop : Nat} {e : Term} : s.finish stop = .ok e ↔
    ∃ disjunct conjunct, s = ⟨[], .operator disjunct conjunct⟩ ∧ chain .or disjunct conjunct = e := by
  obtain ⟨outer, focus⟩ := s
  cases focus with
  | operand level => simp [finish]
  | operator disjunct conjunct =>
    cases outer with
    | nil => simp [finish, and_assoc]
    | cons group outer => simp [finish]

end State

/-- A term is what is left over after all symbols, outside of all groups. -/
theorem parse_eq_ok_iff_steps {tokens : List Token} {e : Term} : parse tokens = .ok e ↔
    ∃ disjunct conjunct, State.start.Steps (Symbol.read tokens) ⟨[], .operator disjunct conjunct⟩ ∧
      chain .or disjunct conjunct = e := by
  have hbind : parse tokens = .ok e ↔ ∃ s, State.start.Steps (Symbol.read tokens) s ∧
      s.finish (Token.stopOr 0 tokens) = .ok e := by
    unfold parse State.Steps
    cases (Symbol.read tokens).foldlM State.step State.start <;> simp [bind, Except.bind]
  rw [hbind]
  simp only [State.finish_eq_ok_iff]
  refine ⟨fun ⟨s, hs, d, c, he, hc⟩ => ⟨d, c, he ▸ hs, hc⟩, fun ⟨d, c, hs, hc⟩ => ?_⟩
  exact ⟨_, hs, d, c, rfl, hc⟩

/-! ## Completeness -/

/-- What the symbols of a term do to a reader that is ready for one of this rank: the level gets its
operand, and a disjunction is left as its last conjunction and what stands before that. -/
def Takes : Rank → List Symbol → Term → Prop
  | .atom, symbols, e | .unary, symbols, e => ∀ outer level,
    State.Steps ⟨outer, .operand level⟩ symbols ⟨outer, level.supply e⟩
  | .conjunction, symbols, e => ∀ outer disjunct,
    State.Steps ⟨outer, .operand ⟨disjunct, none, []⟩⟩ symbols ⟨outer, .operator disjunct e⟩
  | .disjunction, symbols, e => ∀ outer, ∃ disjunct conjunct,
    State.Steps ⟨outer, .operand .fresh⟩ symbols ⟨outer, .operator disjunct conjunct⟩ ∧
      chain .or disjunct conjunct = e

/-- The symbols of a derived term lead to the term. -/
theorem Derives.exists_takes {r : Rank} {ts : List Token} {e : Term} (h : Derives r ts e)
    (ho : InOrder ts) : ∃ symbols, Forms ts symbols ∧ Takes r symbols e := by
  induction h with
  | before blank _ ih =>
    obtain ⟨symbols, hforms, htakes⟩ := ih (ho.sublist (List.sublist_cons_self _ _))
    exact ⟨symbols, .blank blank hforms, htakes⟩
  | after blank _ ih =>
    obtain ⟨symbols, hforms, htakes⟩ := ih (ho.sublist (List.sublist_append_left _ _))
    exact ⟨symbols, by simpa using hforms.append (.blank blank .nil), htakes⟩
  | literal kind text =>
    exact ⟨_, .single (.literal kind text), fun _ _ => .single rfl⟩
  | access labelType dot value =>
    exact ⟨_, .single (.access labelType dot value), fun _ _ => .single rfl⟩
  | @group o c ts e opening inner closing ih =>
    obtain ⟨symbols, hforms, htakes⟩ :=
      ih (ho.sublist ((List.sublist_append_left _ _).trans (List.sublist_cons_self _ _)))
    refine ⟨.openParen o.span :: (symbols ++ [.closeParen c.span]),
      .cons (.openParen opening) (hforms.append (.single (.closeParen closing))), ?_⟩
    intro outer level
    obtain ⟨d, j, hsteps, rfl⟩ := htakes ((o.span, level) :: outer)
    rw [Derives.extent_group opening closing ho]
    exact .cons rfl (hsteps.append (.single rfl))
  | atom _ ih => exact ih ho
  | @not t ts e bang operand ih =>
    obtain ⟨symbols, hforms, htakes⟩ := ih (ho.sublist (List.sublist_cons_self _ _))
    refine ⟨.bang t.span :: symbols, .cons (.bang bang) hforms, ?_⟩
    intro outer level
    rw [operand.extent_not bang ho]
    exact .cons rfl (htakes outer { level with bangs := t.span :: level.bangs })
  | unary _ ih =>
    obtain ⟨symbols, hforms, htakes⟩ := ih ho
    exact ⟨symbols, hforms, fun outer disjunct => htakes outer ⟨disjunct, none, []⟩⟩
  | @and p q ts us lhs rhs left first second right ihl ihr =>
    obtain ⟨symbols, hforms, htakes⟩ := ihl (ho.sublist (List.sublist_append_left _ _))
    obtain ⟨more, hforms', htakes'⟩ := ihr (ho.sublist (List.sublist_append_of_sublist_right
      ((List.sublist_cons_self _ _).trans (List.sublist_cons_self _ _))))
    refine ⟨symbols ++ .connective .and p.start :: more,
      hforms.append (.cons (@Spelled.connective .and p q first second) hforms'), ?_⟩
    intro outer disjunct
    exact (htakes outer disjunct).append (.cons rfl (htakes' outer ⟨disjunct, some lhs, []⟩))
  | conjunction _ ih =>
    obtain ⟨symbols, hforms, htakes⟩ := ih ho
    exact ⟨symbols, hforms, fun outer => ⟨none, _, htakes outer none, rfl⟩⟩
  | @or p q ts us lhs rhs left first second right ihl ihr =>
    obtain ⟨symbols, hforms, htakes⟩ := ihl (ho.sublist (List.sublist_append_left _ _))
    obtain ⟨more, hforms', htakes'⟩ := ihr (ho.sublist (List.sublist_append_of_sublist_right
      ((List.sublist_cons_self _ _).trans (List.sublist_cons_self _ _))))
    refine ⟨symbols ++ .connective .or p.start :: more,
      hforms.append (.cons (@Spelled.connective .or p q first second) hforms'), ?_⟩
    intro outer
    obtain ⟨d, c, hsteps, rfl⟩ := htakes outer
    exact ⟨_, _, hsteps.append (.cons rfl (htakes' outer _)), rfl⟩

/-! ## Soundness -/

/-- The tokens in front of an operand: a derived chain with the operator after it, or nothing. -/
def Left (op : Connective) (lhs : Option Term) (ts : List Token) : Prop :=
  match lhs with
  | none => ts = []
  | some e => ∃ us p q, ts = us ++ [p, q] ∧ Derives op.rank us e ∧ p.kind = op.kind ∧
    q.kind = op.kind

/-- Negations that wait for their operand, the innermost first, with blanks after them. -/
inductive Bangs : List Span → List Token → Prop
  | nil : Bangs [] []
  | blank {t : Token} {spans : List Span} {ts : List Token} (kind : t.kind = .blank)
      (rest : Bangs spans ts) : Bangs spans (ts ++ [t])
  | bang {t : Token} {spans : List Span} {ts : List Token} (kind : t.kind = .bang)
      (rest : Bangs spans ts) : Bangs (t.span :: spans) (ts ++ [t])

/-- What waits at a level was derived from these tokens. -/
def Level.Holds (level : Level) (ts : List Token) : Prop :=
  ∃ a b c, ts = a ++ (b ++ c) ∧ Left .or level.disjunct a ∧
    Left .and level.conjunct b ∧ Bangs level.bangs c

/-- What is finished at the innermost level was derived from these tokens. -/
def Focus.Holds : Focus → List Token → Prop
  | .operand level, ts => level.Holds ts
  | .operator disjunct conjunct, ts =>
    ∃ a b, ts = a ++ b ∧ Left .or disjunct a ∧ Derives .conjunction b conjunct

/-- The groups that are open stand in these tokens, each after what waits around it. -/
inductive Outer : List (Span × Level) → List Token → Prop
  | nil : Outer [] []
  | group {o : Token} {level : Level} {outer : List (Span × Level)} {a b : List Token}
      (opening : o.kind = .openParen) (around : level.Holds b) (rest : Outer outer a) :
      Outer ((o.span, level) :: outer) (a ++ (b ++ [o]))

/-- A state says what has been derived from the tokens taken so far. -/
def State.Holds (s : State) (ts : List Token) : Prop :=
  ∃ a b, ts = a ++ b ∧ Outer s.outer a ∧ s.focus.Holds b

theorem Level.holds_fresh : Level.fresh.Holds [] := ⟨[], [], [], rfl, rfl, rfl, .nil⟩

theorem State.holds_start : State.start.Holds [] := ⟨[], [], rfl, .nil, Level.holds_fresh⟩

/-- A chain takes its next operand. -/
theorem Left.chain {op : Connective} {lhs : Option Term} {ts us : List Token} {e : Term}
    (h : Left op lhs ts) (he : Derives op.operandRank us e) :
    Derives op.rank (ts ++ us) (chain op lhs e) := by
  cases lhs with
  | none =>
    obtain rfl := h
    exact he.operand
  | some f =>
    obtain ⟨vs, p, q, rfl, hf, hp, hq⟩ := h
    rw [List.append_assoc]
    exact hf.binary hp hq he

/-- Negations take an operand. -/
theorem Bangs.negate {spans : List Span} {ts us : List Token} {e : Term} (h : Bangs spans ts)
    (he : Derives .unary us e) (ho : InOrder (ts ++ us)) :
    Derives .unary (ts ++ us) (negate spans e) := by
  induction h generalizing us e with
  | nil => exact he
  | blank kind _ ih =>
    rw [List.append_assoc] at ho ⊢
    exact ih (.before kind he) ho
  | @bang t spans ts kind _ ih =>
    rw [List.append_assoc] at ho ⊢
    have hu : InOrder (t :: us) := ho.sublist (List.sublist_append_right _ _)
    have hnot := Derives.not kind he
    rw [he.extent_not kind hu] at hnot
    exact ih hnot ho

/-- A level takes an operand. -/
theorem Level.Holds.supply {level : Level} {ts us : List Token} {e : Term} (h : level.Holds ts)
    (he : Derives .unary us e) (ho : InOrder (ts ++ us)) : (level.supply e).Holds (ts ++ us) := by
  obtain ⟨a, b, c, rfl, hdisjunct, hconjunct, hbangs⟩ := h
  simp only [List.append_assoc] at ho ⊢
  have hunary := hbangs.negate he ((ho.sublist (List.sublist_append_right _ _)).sublist
    (List.sublist_append_right _ _))
  exact ⟨a, _, rfl, hdisjunct, hconjunct.chain hunary⟩

/-- A blank changes nothing. -/
theorem State.Holds.blank {s : State} {ts : List Token} {t : Token} (h : s.Holds ts)
    (ht : t.kind = .blank) : s.Holds (ts ++ [t]) := by
  obtain ⟨outer, focus⟩ := s
  obtain ⟨a, b, rfl, houter, hfocus⟩ := h
  refine ⟨a, b ++ [t], by simp, houter, ?_⟩
  cases focus with
  | operand level =>
    obtain ⟨a, b, c, rfl, hdisjunct, hconjunct, hbangs⟩ := hfocus
    exact ⟨a, b, c ++ [t], by simp, hdisjunct, hconjunct, .blank ht hbangs⟩
  | operator disjunct conjunct =>
    obtain ⟨a, b, rfl, hdisjunct, hconjunct⟩ := hfocus
    exact ⟨a, b ++ [t], by simp, hdisjunct, .after ht hconjunct⟩

/-- A symbol is taken to what was derived. -/
theorem State.Holds.step {s s' : State} {ts us : List Token} {symbol : Symbol} (h : s.Holds ts)
    (hsymbol : Spelled us symbol) (hstep : s.step symbol = .ok s') (ho : InOrder (ts ++ us)) :
    s'.Holds (ts ++ us) := by
  obtain ⟨outer, focus⟩ := s
  obtain ⟨a, b, rfl, houter, hfocus⟩ := h
  rw [List.append_assoc] at ho ⊢
  have hb : InOrder (b ++ us) := ho.sublist (List.sublist_append_right _ _)
  cases focus with
  | operand level =>
    cases hsymbol with
    | @bang t kind =>
      cases hstep
      obtain ⟨x, y, z, rfl, hdisjunct, hconjunct, hbangs⟩ := hfocus
      exact ⟨a, _, rfl, houter, x, y, z ++ [t], by simp, hdisjunct, hconjunct, .bang kind hbangs⟩
    | @openParen t kind =>
      cases hstep
      exact ⟨a ++ (b ++ [t]), [], by simp, .group kind hfocus houter, Level.holds_fresh⟩
    | literal kind text =>
      cases hstep
      exact ⟨a, _, rfl, houter, hfocus.supply (.atom (.literal kind text)) hb⟩
    | access labelType dot value =>
      cases hstep
      exact ⟨a, _, rfl, houter, hfocus.supply (.atom (.access labelType dot value)) hb⟩
    | closeParen => cases hstep
    | connective => cases hstep
  | operator disjunct conjunct =>
    obtain ⟨x, y, rfl, hdisjunct, hconjunct⟩ := hfocus
    cases hsymbol with
    | @connective op t u first second =>
      cases op with
      | and =>
        cases hstep
        exact ⟨a, _, rfl, houter, x, y ++ [t, u], [], by simp, hdisjunct,
          ⟨y, t, u, rfl, hconjunct, first, second⟩, .nil⟩
      | or =>
        cases hstep
        exact ⟨a, _, rfl, houter, (x ++ y) ++ [t, u], [], [], by simp,
          ⟨x ++ y, t, u, rfl, hdisjunct.chain hconjunct, first, second⟩, rfl, .nil⟩
    | @closeParen c kind =>
      cases houter with
      | nil => cases hstep
      | @group o level outer a₀ b₀ opening around rest =>
        cases hstep
        have hsplit : a₀ ++ (b₀ ++ [o]) ++ (x ++ y ++ [c]) =
            a₀ ++ (b₀ ++ o :: (x ++ y ++ [c])) := by simp
        rw [hsplit] at ho ⊢
        have hb₀ : InOrder (b₀ ++ o :: (x ++ y ++ [c])) :=
          ho.sublist (List.sublist_append_right _ _)
        have hgroup := Derives.group opening (hdisjunct.chain hconjunct) kind
        rw [Derives.extent_group opening kind
          (hb₀.sublist (List.sublist_append_right _ _))] at hgroup
        exact ⟨a₀, _, rfl, rest, around.supply (.atom hgroup) hb₀⟩
    | bang => cases outer <;> cases hstep
    | openParen => cases outer <;> cases hstep
    | literal => cases outer <;> cases hstep
    | access => cases outer <;> cases hstep

/-- What holds goes on to hold. -/
theorem State.Holds.steps {s s' : State} {ts us : List Token} {symbols : List Symbol}
    (h : s.Holds ts) (hforms : Forms us symbols) (hsteps : s.Steps symbols s')
    (ho : InOrder (ts ++ us)) : s'.Holds (ts ++ us) := by
  induction hforms generalizing s ts with
  | nil =>
    obtain rfl := State.steps_nil_iff.1 hsteps
    simpa using h
  | @blank t us symbols kind _ ih =>
    have hsplit : ts ++ t :: us = (ts ++ [t]) ++ us := by simp
    rw [hsplit] at ho ⊢
    exact ih (h.blank kind) hsteps ho
  | @cons vs us symbol symbols first _ ih =>
    obtain ⟨s₁, hstep, hrest⟩ := State.steps_cons_iff.1 hsteps
    rw [← List.append_assoc] at ho ⊢
    exact ih (h.step first hstep (ho.sublist (List.sublist_append_left _ _))) hrest ho

/-- The tree that is built of tokens in order is the one that is derived from them. -/
theorem parse_eq_ok_iff {tokens : List Token} {e : Term} (ho : InOrder tokens) :
    parse tokens = .ok e ↔ Derives .disjunction tokens e := by
  rw [parse_eq_ok_iff_steps]
  refine ⟨fun ⟨d, c, hsteps, hc⟩ => ?_, fun h => ?_⟩
  · have hforms := Symbol.forms_read (State.isFault_of_steps hsteps)
    obtain ⟨a, b, rfl, houter, x, y, rfl, hdisjunct, hconjunct⟩ :=
      State.holds_start.steps hforms hsteps ho
    cases houter
    exact hc ▸ hdisjunct.chain hconjunct
  · obtain ⟨symbols, hforms, htakes⟩ := h.exists_takes ho
    rw [hforms.read_eq]
    exact htakes []

end LabelFlow.Term
