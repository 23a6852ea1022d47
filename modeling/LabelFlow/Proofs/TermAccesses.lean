import LabelFlow.Proofs.Consultation
import LabelFlow.Proofs.Derivation

/-!
# Label accesses of a term

A term that is read as a tree also passes as a sequence of symbols, and with the accesses of the
tree (`Term.ofTokens_eq_accesses`), whatever the tokens are. What a reader holds has accesses too
(`Term.State.accesses`), and every step adds those of its symbol. The check of an Assignment
statement therefore never refuses a term that is read, and looks up the labels of its tree.
-/

set_option autoImplicit false

namespace LabelFlow

namespace Symbol

/-- The label access that a symbol is, if it is one. -/
def own : Symbol → List Access
  | .access a => [a]
  | _ => []

/-- A symbol that is no fault adds its own access. -/
theorem accesses_cons {symbol : Symbol} (h : symbol.isFault = false) {symbols : List Symbol}
    {as : List Access} (has : accesses symbols = .ok as) :
    accesses (symbol :: symbols) = .ok (symbol.own ++ as) := by
  cases symbol with
  | fault error start isWord => cases h
  | access a => exact accesses_access_iff.2 ⟨as, has, rfl⟩
  | _ => exact has

end Symbol

namespace Term

/-- The accesses of a left operand, if there is one. -/
def leftAccesses (lhs : Option Term) : List Access := (lhs.map accesses).getD []

@[simp] theorem accesses_chain (op : Connective) (lhs : Option Term) (rhs : Term) :
    (chain op lhs rhs).accesses = leftAccesses lhs ++ rhs.accesses := by
  cases lhs <;> rfl

@[simp] theorem accesses_negate (bangs : List Span) (e : Term) :
    (negate bangs e).accesses = e.accesses := by
  induction bangs generalizing e with
  | nil => rfl
  | cons bang bangs ih => exact ih _

/-- The accesses of what waits at a level. -/
def Level.accesses (level : Level) : List Access :=
  leftAccesses level.disjunct ++ leftAccesses level.conjunct

/-- The accesses of what waits around the open groups, the outermost first. -/
def outerAccesses : List (Span × Level) → List Access
  | [] => []
  | (_, level) :: outer => outerAccesses outer ++ level.accesses

namespace State

/-- The accesses of all symbols taken so far. -/
def accesses : State → List Access
  | ⟨outer, .operand level⟩ => outerAccesses outer ++ level.accesses
  | ⟨outer, .operator disjunct conjunct⟩ =>
    outerAccesses outer ++ (leftAccesses disjunct ++ conjunct.accesses)

variable {s s' : State} {symbol : Symbol} {symbols : List Symbol}

/-- A level that takes an operand takes its accesses. -/
theorem accesses_supply (outer : List (Span × Level)) (level : Level) (e : Term) :
    accesses ⟨outer, level.supply e⟩ = outerAccesses outer ++ (level.accesses ++ e.accesses) := by
  simp [Level.supply, accesses, Level.accesses]

/-- A step adds the access of its symbol. -/
theorem accesses_step (h : s.step symbol = .ok s') : s'.accesses = s.accesses ++ symbol.own := by
  obtain ⟨outer, focus⟩ := s
  cases focus with
  | operand level =>
    cases symbol with
    | bang span =>
      cases h
      exact (List.append_nil _).symm
    | openParen span =>
      cases h
      rfl
    | literal value span =>
      cases h
      rw [accesses_supply]
      simp [accesses, Term.accesses, Symbol.own]
    | access a =>
      cases h
      rw [accesses_supply]
      simp [accesses, Term.accesses, Symbol.own]
    | closeParen span => cases h
    | connective op start => cases h
    | fault error start isWord => cases isWord <;> cases h
  | operator disjunct conjunct =>
    cases symbol with
    | connective op start =>
      cases op with
      | and =>
        cases h
        exact (List.append_nil _).symm
      | or =>
        cases h
        simp [accesses, Level.accesses, leftAccesses, Symbol.own]
    | closeParen close =>
      cases outer with
      | nil => cases h
      | cons group outer =>
        -- the level around the group takes the accesses of the group as those of an operand
        cases h
        rw [accesses_supply]
        simp [accesses, outerAccesses, Term.accesses, Symbol.own]
    | _ => cases outer <;> cases h

/-- A run adds the accesses of its symbols, none of which is a fault. -/
theorem Steps.accesses (h : s.Steps symbols s') :
    ∃ as, Symbol.accesses symbols = .ok as ∧ s'.accesses = s.accesses ++ as := by
  induction symbols generalizing s with
  | nil =>
    obtain rfl := steps_nil_iff.1 h
    exact ⟨[], rfl, (List.append_nil _).symm⟩
  | cons symbol symbols ih =>
    obtain ⟨t, hstep, hrest⟩ := steps_cons_iff.1 h
    obtain ⟨as, has, hs'⟩ := ih hrest
    refine ⟨_, Symbol.accesses_cons (isFault_of_step hstep) has, ?_⟩
    rw [hs', accesses_step hstep, List.append_assoc]

end State

/-- Tokens that are read as a tree pass with the accesses of the tree. -/
theorem ofTokens_eq_accesses {tokens : List Token} {e : Term} (h : parse tokens = .ok e) :
    Access.ofTokens tokens = .ok e.accesses := by
  obtain ⟨disjunct, conjunct, hsteps, rfl⟩ := parse_eq_ok_iff_steps.1 h
  obtain ⟨as, has, hend⟩ := hsteps.accesses
  rw [accesses_chain]
  exact has.trans (congrArg _ hend.symm)

/-- Blanks alone are no term. -/
theorem exists_of_parse {tokens : List Token} {e : Term} (h : parse tokens = .ok e) :
    ∃ t ∈ tokens, t.kind ≠ .blank := by
  refine Decidable.byContradiction fun hno => ?_
  have hread : ∀ {ts : List Token}, (∀ t ∈ ts, t.kind = .blank) → Symbol.read ts = [] := by
    intro ts hts
    induction ts with
    | nil => rw [Symbol.read]
    | cons t ts ih =>
      obtain ⟨ht, hts⟩ := List.forall_mem_cons.1 hts
      rw [Symbol.read_blank ht, ih hts]
  obtain ⟨disjunct, conjunct, hsteps, -⟩ := parse_eq_ok_iff_steps.1 h
  rw [hread fun t ht => Decidable.not_not.1 fun hk => hno ⟨t, ht, hk⟩, State.steps_nil_iff] at hsteps
  cases hsteps

end Term

namespace Assignment

variable {minLength : Nat} {catalog : Option Catalog} {line : String} {a : Assignment} {e : Term}

theorem not_blank_of_parse (ha : parse? minLength line = some a)
    (he : Term.parse (Token.inside (Token.ofLine line) a.term.span) = .ok e) :
    ¬ Text.Blank a.term.text.toList := by
  obtain ⟨l, -, hline, rfl⟩ := parse?_eq_some_iff.1 ha
  rw [Layout.Assignment.inside_term hline] at he
  rw [Layout.Assignment.toList_term]
  intro hblank
  obtain ⟨t, ht, hk⟩ := Term.exists_of_parse he
  obtain ⟨c, hc, htc⟩ := Token.exists_of_mem_ofText ht
  exact hk (htc.trans (Kind.ofChar_eq_blank.2 (hblank c hc)))

/-- A statement whose term is a tree is checked for the labels of the tree if its parentheses are
balanced. -/
theorem analyze_of_parse (ha : parse? minLength line = some a)
    (he : Term.parse (Token.inside (Token.ofLine line) a.term.span) = .ok e)
    (hnone : parenFinding 0 (Token.ofLine line) = none) :
    a.analyze catalog (Token.ofLine line) =
      ⟨(a.problems catalog e.accesses).eraseDups.flatMap (a.findings (Token.ofLine line)), true⟩ := by
  have hpass := Term.ofTokens_eq_accesses he
  have h := a.checked_analyze catalog (Token.ofLine line)
  generalize a.analyze catalog (Token.ofLine line) = analysis at h
  cases h with
  | unbalanced f paren =>
    rw [hnone] at paren
    cases paren
  | blank _ term => exact absurd term (not_blank_of_parse ha he)
  | fault _ _ error symbols =>
    rw [hpass] at symbols
    cases symbols
  | labels _ _ accesses symbols =>
    rw [hpass] at symbols
    rw [Except.ok.inj symbols]

/-- A term that is a tree is not refused. -/
theorem not_invalidTerm_of_parse
    (he : Term.parse (Token.inside (Token.ofLine line) a.term.span) = .ok e) {f : Finding}
    (hf : f ∈ (a.analyze catalog (Token.ofLine line)).findings) : f.problem ≠ .invalidTerm := by
  have h := a.checked_analyze catalog (Token.ofLine line)
  generalize a.analyze catalog (Token.ofLine line) = analysis at h hf
  cases h with
  | unbalanced g paren =>
    obtain rfl := List.mem_singleton.1 hf
    obtain rfl | ⟨t, -, -, rfl⟩ := parenFinding_eq_some paren <;> nofun
  | blank =>
    obtain rfl := List.mem_singleton.1 hf
    nofun
  | fault _ _ error symbols =>
    rw [Term.ofTokens_eq_accesses he] at symbols
    cases symbols
  | labels =>
    obtain ⟨p, hp, hf⟩ := List.mem_flatMap.1 hf
    rw [problem_of_mem_findings hf]
    obtain ⟨n, -, rfl⟩ | rfl | ⟨l, -, rfl | ⟨-, rfl⟩⟩ := mem_problems (List.mem_eraseDups.1 hp) <;>
      nofun

end Assignment

/-- Only a refused term is reported under its code. -/
theorem Problem.eq_invalidTerm {p : Problem} (h : p.code.id = Code.invalidTerm.id) :
    p = .invalidTerm := by
  have hcode : ∀ c : Code, c.id = Code.invalidTerm.id → c = .invalidTerm := by
    intro c
    cases c <;> decide
  have hp := hcode _ h
  cases p with
  | invalidTerm => rfl
  | _ => cases hp

/-- Reading a term as a tree and as a sequence of symbols agree: tokens that make a tree pass with
the label accesses of the tree. In a statement such a term is never refused, and what is checked are
the labels of the tree. -/
theorem term_accesses_agree (tokens : List Token) (e : Term) (h : Term.parse tokens = .ok e) :
    Access.ofTokens tokens = .ok e.accesses ∧
    ∀ (v : Validator) (line : String) (a : Assignment),
      Assignment.parse? v.config.minNameLength line = some a →
      Token.inside (Token.ofLine line) a.term.span = tokens →
      (Text.WellNested line.toList → v.analyze line =
        ⟨(a.problems v.catalog e.accesses).eraseDups.flatMap (a.findings (Token.ofLine line)),
          true⟩) ∧
      ∀ text owner o, v.validate text owner = .ok o → ∀ d ∈ o.diagnostics,
        (Text.lines text)[d.line]? = some line → d.id ≠ Code.invalidTerm.id := by
  refine ⟨Term.ofTokens_eq_accesses h, fun v line a ha htokens => ?_⟩
  rw [← htokens] at h
  refine ⟨fun hnested => ?_, fun text owner o ho d hd hline hid => ?_⟩
  · rw [Validator.analyze_assignment ha]
    exact Assignment.analyze_of_parse ha h (Assignment.parenFinding_eq_none_iff.2 hnested)
  · obtain ⟨line', hline', f, hf, hdiagnostic⟩ := Validator.mem_diagnostics ho hd
    obtain rfl : line = line' := Option.some.inj (hline.symm.trans hline')
    rw [Validator.analyze_assignment ha] at hf
    rw [hdiagnostic] at hid
    exact Assignment.not_invalidTerm_of_parse h hf (Problem.eq_invalidTerm hid)

/-- A negated access, checked against a catalog without its type. -/
theorem term_accesses_agree_unknown : ∃ a e,
    Assignment.parse? 1 "Assignment(\x7b\x7d;!A.b;\x7b\x7d)" = some a ∧
    Term.parse (Token.inside (Token.ofLine "Assignment(\x7b\x7d;!A.b;\x7b\x7d)") a.term.span) =
      .ok e ∧
    Access.ofTokens (Token.inside (Token.ofLine "Assignment(\x7b\x7d;!A.b;\x7b\x7d)")
      a.term.span) = .ok e.accesses ∧
    e.accesses = [⟨⟨"A", ⟨15, 16⟩⟩, ⟨"b", ⟨17, 18⟩⟩⟩] ∧
    (Validator.standard (some ⟨[], ⟨nofun, .nil, nofun⟩⟩)).analyze
      "Assignment(\x7b\x7d;!A.b;\x7b\x7d)" = ⟨[⟨.unknownLabelType "A", some ⟨15, 16⟩⟩], true⟩ := by
  obtain ⟨a, ha⟩ : ∃ a : Assignment, a = ⟨[], ⟨"!A.b", ⟨14, 18⟩⟩, [], ⟨11, 13⟩, ⟨14, 21⟩⟩ :=
    ⟨_, rfl⟩
  obtain ⟨e, he⟩ : ∃ e : Term, e = .not (.access ⟨⟨"A", ⟨15, 16⟩⟩, ⟨"b", ⟨17, 18⟩⟩⟩) ⟨14, 18⟩ :=
    ⟨_, rfl⟩
  have hread : Assignment.parse? 1 "Assignment(\x7b\x7d;!A.b;\x7b\x7d)" = some a := by
    rw [ha]
    decide
  have hterm : Term.parse (Token.inside (Token.ofLine "Assignment(\x7b\x7d;!A.b;\x7b\x7d)")
      a.term.span) = .ok e := by
    rw [ha, he]
    decide
  have hnested : Text.WellNested "Assignment(\x7b\x7d;!A.b;\x7b\x7d)".toList :=
    Assignment.parenFinding_eq_none_iff.1 (by decide)
  obtain ⟨hpass, hlines⟩ := term_accesses_agree _ e hterm
  obtain ⟨hanalyze, -⟩ := hlines (.standard (some ⟨[], ⟨nofun, .nil, nofun⟩⟩)) _ a hread rfl
  refine ⟨a, e, hread, hterm, hpass, ?_, ?_⟩
  · rw [he]
    rfl
  · rw [hanalyze hnested, ha, he]
    decide

end LabelFlow
