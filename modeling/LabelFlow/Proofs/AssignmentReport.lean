import LabelFlow.Proofs.Cascade

/-!
# The report of an Assignment statement

An Assignment statement is checked in a row: the term, then the inputs, then the outputs, each label
wherever it stands. `Assignment.collected` lists all that comes of this, however often it comes of
it. `assignment_report_exact`: the report of a text has just that for the line, each diagnostic
once, unless the parentheses or the term of the line are at fault.
-/

set_option autoImplicit false

namespace LabelFlow

open Text Layout

/-! ## Findings one after the other -/

namespace Assignment

/-- How a statement is reported: the first of parentheses, missing term and faulty term that is
wrong, or else all that is collected, each diagnostic once. -/
inductive Reported (catalog : Option Catalog) (available : List String) (number : Nat)
    (line : String) (a : Assignment) : List Diagnostic → Prop
  | parens (nested : ¬ WellNested line.toList) (f : Finding)
      (counted : parenFinding 0 (Token.ofLine line) = some f)
      (blamed : f = .wholeLine .missingClosingParen ∨ ∃ t ∈ Token.ofLine line,
        t.kind = .closeParen ∧ f = ⟨.missingOpeningParen, some t.span⟩) :
      Reported catalog available number line a [f.diagnostic number line]
  | blank (nested : WellNested line.toList)
      (term : ∀ t ∈ Token.inside (Token.ofLine line) a.term.span, t.kind = .blank) :
      Reported catalog available number line a
        [(Finding.wholeLine .missingTerm).diagnostic number line]
  | fault (nested : WellNested line.toList)
      (term : ¬ ∀ t ∈ Token.inside (Token.ofLine line) a.term.span, t.kind = .blank)
      (error : TermFault)
      (symbols : Access.ofTokens (Token.inside (Token.ofLine line) a.term.span) = .error error) :
      Reported catalog available number line a
        [(Finding.wholeLine .invalidTerm).diagnostic number line]
  | labels (nested : WellNested line.toList)
      (term : ¬ ∀ t ∈ Token.inside (Token.ofLine line) a.term.span, t.kind = .blank)
      (accesses : List Access)
      (symbols : Access.ofTokens (Token.inside (Token.ofLine line) a.term.span) = .ok accesses) :
      Reported catalog available number line a
        ((a.collected catalog available (Token.ofLine line) accesses).map fun f =>
          f.diagnostic number line).eraseDups

end Assignment

namespace Layout.Assignment

variable {minLength : Nat} {l : Assignment} {line : String}

theorem blank_term_iff (hline : line.toList = l.chars) :
    (∀ t ∈ Token.inside (Token.ofLine line) l.value.term.span, t.kind = .blank) ↔
      Blank l.value.term.text.toList := by
  have h := Token.all_ofText (· == .blank) l.termStart l.term
  rw [inside_term hline, toList_term]
  simp only [Kind.isBlank_ofChar] at h
  rw [Bool.eq_iff_iff, List.all_eq_true, List.all_eq_true] at h
  simpa [Blank] using h

end Layout.Assignment

/-- The check of a statement comes to its report. -/
theorem Assignment.reported_analyze {minLength : Nat} {line : String} {a : Assignment}
    (h : parse? minLength line = some a) (catalog : Option Catalog) (available : List String)
    (number : Nat) : a.Reported catalog available number line
      (((a.analyze catalog (Token.ofLine line)).found available).map fun f =>
        f.diagnostic number line) := by
  obtain ⟨l, hl, hline, rfl⟩ := parse?_eq_some_iff.1 h
  have hmarks : ∀ {f : Finding}, f ∈ (l.value.analyze catalog (Token.ofLine line)).findings →
      f.Marks line.toList := fun hf => Layout.Assignment.marks_analyze hl hline hf
  have hcheck := l.value.checked_analyze catalog (Token.ofLine line)
  generalize l.value.analyze catalog (Token.ofLine line) = analysis at hcheck hmarks
  cases hcheck with
  | unbalanced f paren =>
    refine .parens ?_ f paren (parenFinding_eq_some paren)
    rw [← parenFinding_eq_none_iff, paren]
    exact nofun
  | blank paren term =>
    exact .blank (parenFinding_eq_none_iff.1 paren)
      ((Layout.Assignment.blank_term_iff hline).2 term)
  | fault paren term error symbols =>
    exact .fault (parenFinding_eq_none_iff.1 paren)
      (mt (Layout.Assignment.blank_term_iff hline).1 term) error symbols
  | labels paren term accesses symbols =>
    have hfound := Layout.Assignment.standing_problems hl hline catalog available accesses
    have hcollected : ∀ {f : Finding},
        f ∈ l.value.collected catalog available (Token.ofLine line) accesses →
          f.Marks line.toList := by
      intro f hf
      rw [← List.mem_eraseDups, ← hfound] at hf
      exact hmarks (List.mem_filter.1 hf).1
    have hreport : l.value.Reported catalog available number line _ :=
      .labels (parenFinding_eq_none_iff.1 paren)
        (mt (Layout.Assignment.blank_term_iff hline).1 term) accesses symbols
    rw [eraseDups_map fun f hf g hg => (hcollected hf).diagnostic_inj (hcollected hg),
      ← hfound] at hreport
    exact hreport

/-- The report of an Assignment statement is exact: on a node, the diagnostics of a line that is
read as one are those of `Assignment.Reported`. If its parentheses nest and its term is made of
symbols, they are all that is collected from the accesses, the inputs and the outputs, each once. -/
theorem assignment_report_exact (v : Validator) (text : String) (inputs : List String) :
    ∃ o, v.validate text (.node inputs) = .ok o ∧ ∀ i line a,
      (Text.lines text)[i]? = some line → Assignment.parse? v.config.minNameLength line = some a →
        a.Reported v.catalog inputs i line (o.diagnostics.filter fun d => d.line == i) := by
  obtain ⟨o, ho, hreports⟩ := v.exists_reports text inputs
  refine ⟨o, ho, fun i line a hline hread => ?_⟩
  rw [hreports i line hline, Validator.report, Validator.analyze_assignment hread]
  exact Assignment.reported_analyze hread v.catalog inputs i

/-- A type that is not known is reported once wherever it stands, and so is an input that is not
available. -/
theorem assignment_report_exact_repeats : ∃ o,
    (Validator.standard (some ⟨[], nofun, .nil, nofun⟩)).validate
        "Assignment(\x7bx,y,x\x7d;A.v A.v;\x7bB.w.z,A.\x7d)" (.node ["y"]) = .ok o ∧
      (∃ a, Assignment.parse? 1 "Assignment(\x7bx,y,x\x7d;A.v A.v;\x7bB.w.z,A.\x7d)" = some a ∧
        a.Reported (some ⟨[], nofun, .nil, nofun⟩) ["y"] 0
          "Assignment(\x7bx,y,x\x7d;A.v A.v;\x7bB.w.z,A.\x7d)"
            (o.diagnostics.filter fun d => d.line == 0)) ∧
      o.diagnostics.map (fun d => (d.id, d.colStart, d.colEnd)) =
        [("BHV2101", some 19, some 20), ("BHV2101", some 23, some 24),
          ("BHV2101", some 34, some 35), ("BHV2002", some 12, some 13),
          ("BHV2101", some 28, some 29), ("BHV2103", some 0, some 38)] := by
  obtain ⟨o, ho, hlines⟩ := assignment_report_exact (.standard (some ⟨[], nofun, .nil, nofun⟩))
    "Assignment(\x7bx,y,x\x7d;A.v A.v;\x7bB.w.z,A.\x7d)" ["y"]
  obtain ⟨a, ha⟩ := Option.isSome_iff_exists.1 (by decide : (Assignment.parse? 1
    "Assignment(\x7bx,y,x\x7d;A.v A.v;\x7bB.w.z,A.\x7d)").isSome = true)
  refine ⟨o, ho, ⟨a, ha, hlines 0 _ a rfl ha⟩, ?_⟩
  rw [Validator.validate_node] at ho
  cases ho
  rfl

end LabelFlow
