import LabelFlow.Proofs.Forwarding
import LabelFlow.Proofs.GuardedRun
import LabelFlow.Proofs.Places

/-!
# No operation fails

`no_operation_fails`: on every line the operations that may fail succeed, whether a line is cut into
tokens, searched or read as a statement (`Guarded.LineSafe`), or a slice of its tokens is searched
or read as a term (`Guarded.RegionSafe`), and every name that is read stands at a span of the line
(`Span.Within`). So does validating a text.
-/

set_option autoImplicit false

namespace LabelFlow

/-! ## Spans of a line -/

namespace Span

/-- The span ends in the line, and not before it starts. -/
def Within (s : Span) (line : String) : Prop :=
  s.start ≤ s.stop ∧ s.stop ≤ Text.width line.toList

instance (s : Span) (line : String) : Decidable (s.Within line) :=
  inferInstanceAs (Decidable (_ ∧ _))

variable {s s' : Span} {line : String}

theorem Covers.within {text : List Char} (h : s.Covers line.toList text) : s.Within line := by
  obtain ⟨before, after, hline, rfl⟩ := h
  refine ⟨Nat.le_add_right .., ?_⟩
  rw [hline, Text.width_append, Text.width_append]
  exact Nat.le_add_right ..

theorem Within.cover (h : s.Within line) (h' : s'.Within line) : (s.cover s').Within line := by
  obtain ⟨hle, hstop⟩ := h
  obtain ⟨hle', hstop'⟩ := h'
  exact ⟨Nat.le_trans (Nat.min_le_left ..) (Nat.le_trans hle (Nat.le_max_left ..)),
    Nat.max_le.2 ⟨hstop, hstop'⟩⟩

end Span

theorem Token.within_of_mem {line : String} {t : Token} (h : t ∈ Token.ofLine line) :
    t.span.Within line := by
  have hbounds := bounds_of_mem_ofText h
  rw [Nat.zero_add] at hbounds
  exact ⟨Nat.le_of_lt hbounds.2.1, hbounds.2.2⟩

/-- The names and the commas of a Forwarding statement stand in its line. -/
theorem Forwarding.within_of_parse? {minLength : Nat} {line : String} {f : Forwarding}
    (h : parse? minLength line = some f) : (∀ n ∈ f.inputs.names, n.span.Within line) ∧
      ∀ c ∈ f.inputs.commas, c.Within line := by
  obtain ⟨first, more, -, hline, rfl⟩ := parse?_eq_some_iff.1 h
  have hstands := Layout.standsIn_forwarding first more
  rw [← hline] at hstands
  exact ⟨fun n hn => (hstands.names n hn).within, fun c hc => (hstands.commas c hc).within⟩

/-- A label stands in a line if its names do. -/
theorem OutputLabel.within_of_names {line : String} {l : OutputLabel}
    (h : ∀ n ∈ l.names, n.span.Within line) : l.span.Within line := by
  have htype : l.labelType.span.Within line := h _ List.mem_cons_self
  rw [span]
  split
  next segment hlast =>
    exact htype.cover (h _ (List.mem_cons_of_mem _
      (List.mem_append_right _ (List.mem_of_getLast? hlast))))
  next value _ hvalue =>
    exact htype.cover (h _ (List.mem_cons_of_mem _
      (List.mem_append_left _ (Option.mem_toList.2 hvalue))))
  next => exact htype

/-- The names and the regions of an Assignment statement stand in its line. -/
theorem Assignment.within_of_parse? {minLength : Nat} {line : String} {a : Assignment}
    (h : parse? minLength line = some a) : (∀ n ∈ a.names, n.span.Within line) ∧
      (∀ l ∈ a.outputs, l.span.Within line) ∧ a.inputSpan.Within line ∧
        a.labelSpan.Within line := by
  obtain ⟨l, hl, hline, rfl⟩ := parse?_eq_some_iff.1 h
  have hnames : ∀ n ∈ l.value.names, n.span.Within line := fun n hn =>
    Span.Covers.within (hline ▸ Layout.Assignment.covers_names hl hn)
  refine ⟨hnames, fun o ho => OutputLabel.within_of_names fun n hn => hnames n ?_,
    Span.Covers.within (hline ▸ l.covers_inputSpan),
    Span.Covers.within (hline ▸ l.covers_labelSpan)⟩
  exact List.mem_append_right _ (List.mem_cons_of_mem _ (List.mem_flatMap.2 ⟨o, ho, hn⟩))

/-- The label accesses among a slice of the tokens of a line stand in the line. -/
theorem Access.within_of_ofTokens {line : String} {ts : List Token} {as : List Access}
    (hts : ts <:+: Token.ofLine line) (h : ofTokens ts = .ok as) :
    ∀ a ∈ as, a.labelType.span.Within line ∧ a.value.span.Within line := by
  intro a ha
  obtain ⟨l, t, d, v, r, rfl, -, -, -, rfl⟩ := (ofTokens_eq_ok_iff.1 h).exists_of_mem ha
  exact ⟨Token.within_of_mem (hts.subset (by simp)), Token.within_of_mem (hts.subset (by simp))⟩

/-! ## Safety -/

namespace Guarded

/-- The offsets at which a name occurs in a line. -/
def locate (line name : String) (surrounding : Surrounding) : Except Misuse (List Nat) := do
  let ts ← lex line.toList 0 line.toList
  startsOf ts name surrounding

/-- No operation fails on a line, and what is read stands in it. -/
structure LineSafe (minLength : Nat) (line : String) : Prop where
  tokens : lex line.toList 0 line.toList = .ok (Token.ofLine line)
  search : ∀ name surrounding,
    locate line name surrounding = .ok (Token.startsOf (Token.ofLine line) name surrounding)
  forwarding : forwarding minLength line (Token.ofLine line) =
    sure (Forwarding.parse? minLength line)
  inputs : ∀ f, Forwarding.parse? minLength line = some f →
    (∀ n ∈ f.inputs.names, n.span.Within line) ∧ ∀ c ∈ f.inputs.commas, c.Within line
  assignment : assignment minLength line (Token.ofLine line) =
    sure (Assignment.parse? minLength line)
  parts : ∀ a, Assignment.parse? minLength line = some a →
    (∀ n ∈ a.names, n.span.Within line) ∧ (∀ l ∈ a.outputs, l.span.Within line) ∧
      a.inputSpan.Within line ∧ a.labelSpan.Within line
  regions : ∀ s, inside (Token.ofLine line) s = .ok (Token.inside (Token.ofLine line) s) ∧
    Token.inside (Token.ofLine line) s <:+: Token.ofLine line

/-- No operation fails on a slice of the tokens of a line, and the labels that are read stand in the
line. -/
structure RegionSafe (line : String) (ts : List Token) : Prop where
  search : ∀ name surrounding, startsOf ts name surrounding =
    .ok (Token.startsOf ts name surrounding)
  scan : scan ts 0 = decided (Access.ofTokens ts)
  accesses : ∀ as, Access.ofTokens ts = .ok as →
    ∀ a ∈ as, a.labelType.span.Within line ∧ a.value.span.Within line
  parse : parse ts = decided (Term.parse ts)
  labels : ∀ e, Term.parse ts = .ok e →
    ∀ a ∈ e.accesses, a.labelType.span.Within line ∧ a.value.span.Within line

theorem locate_eq (line name : String) (surrounding : Surrounding) :
    locate line name surrounding = .ok (Token.startsOf (Token.ofLine line) name surrounding) := by
  rw [locate, lex_line]
  exact startsOf_eq (fun _ => Token.text_ne_of_mem) name surrounding

theorem lineSafe (minLength : Nat) (line : String) : LineSafe minLength line where
  tokens := lex_line line
  search := locate_eq line
  forwarding := forwarding_eq minLength line
  inputs _ := Forwarding.within_of_parse?
  assignment := assignment_eq minLength line
  parts _ := Assignment.within_of_parse?
  regions s := ⟨inside_line line s,
    (List.takeWhile_prefix _).isInfix.trans (List.dropWhile_suffix _).isInfix⟩

theorem regionSafe {line : String} {ts : List Token} (h : ts <:+: Token.ofLine line) :
    RegionSafe line ts where
  search := startsOf_eq fun _ ht => Token.text_ne_of_mem (h.subset ht)
  scan := scan_eq ts 0
  accesses _ := Access.within_of_ofTokens h
  parse := parse_eq ts
  labels _ he := Access.within_of_ofTokens h (Term.ofTokens_eq_accesses he)

end Guarded

/-- No operation fails: not while a text is validated, whatever the configuration, the catalog and
the owner, nor on a line or on a slice of its tokens. Each gives the result of the function that it
stands for, and what is read stands in the line. -/
theorem no_operation_fails :
    (∀ (v : Validator) (text : String) (owner : Owner),
      Guarded.validate v text owner = Guarded.decided (v.validate text owner)) ∧
    (∀ (minLength : Nat) (line : String), Guarded.LineSafe minLength line) ∧
    ∀ (line : String) (ts : List Token), ts <:+: Token.ofLine line → Guarded.RegionSafe line ts :=
  ⟨Guarded.validate_eq, Guarded.lineSafe, fun _ _ => Guarded.regionSafe⟩

/-- The term of a statement, which is a negated access. -/
theorem no_operation_fails_negated : ∃ a e,
    Assignment.parse? 1 "Assignment(\x7ba\x7d;!A.b;\x7bA.c\x7d)" = some a ∧
    a.names.map Name.text = ["a", "!A.b", "A", "c"] ∧
    (∀ n ∈ a.names, n.span.Within "Assignment(\x7ba\x7d;!A.b;\x7bA.c\x7d)") ∧
    Token.inside (Token.ofLine "Assignment(\x7ba\x7d;!A.b;\x7bA.c\x7d)") ⟨15, 19⟩ <:+:
      Token.ofLine "Assignment(\x7ba\x7d;!A.b;\x7bA.c\x7d)" ∧
    Guarded.parse (Token.inside (Token.ofLine "Assignment(\x7ba\x7d;!A.b;\x7bA.c\x7d)") ⟨15, 19⟩) =
      Guarded.decided (.ok e) ∧
    e.accesses = [⟨⟨"A", ⟨16, 17⟩⟩, ⟨"b", ⟨18, 19⟩⟩⟩] ∧
    ∀ l ∈ e.accesses, l.labelType.span.Within "Assignment(\x7ba\x7d;!A.b;\x7bA.c\x7d)" ∧
      l.value.span.Within "Assignment(\x7ba\x7d;!A.b;\x7bA.c\x7d)" := by
  have hline := no_operation_fails.2.1 1 "Assignment(\x7ba\x7d;!A.b;\x7bA.c\x7d)"
  have hinfix := (hline.regions ⟨15, 19⟩).2
  have hregion := no_operation_fails.2.2 _ _ hinfix
  have hstatement : Assignment.parse? 1 "Assignment(\x7ba\x7d;!A.b;\x7bA.c\x7d)" =
      some ⟨[⟨"a", ⟨12, 13⟩⟩], ⟨"!A.b", ⟨15, 19⟩⟩,
        [⟨⟨"A", ⟨21, 22⟩⟩, some ⟨"c", ⟨23, 24⟩⟩, []⟩], ⟨11, 14⟩, ⟨15, 25⟩⟩ := by decide
  have hterm : Term.parse
      (Token.inside (Token.ofLine "Assignment(\x7ba\x7d;!A.b;\x7bA.c\x7d)") ⟨15, 19⟩) =
      .ok (.not (.access ⟨⟨"A", ⟨16, 17⟩⟩, ⟨"b", ⟨18, 19⟩⟩⟩) ⟨15, 19⟩) := by decide
  exact ⟨_, _, hstatement, rfl, (hline.parts _ hstatement).1, hinfix,
    hregion.parse.trans (congrArg Guarded.decided hterm), rfl, hregion.labels _ hterm⟩

end LabelFlow
