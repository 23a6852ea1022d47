import LabelFlow.Proofs.Acceptance

/-!
# When the node is asked

The node is asked for its inputs by the lines whose check comes that far (`Validator.Consults`):
Forwarding statements whose names are there and distinct, and Assignment statements with nested
parentheses and a term that is made of symbols. Everything else is decided without a node.
-/

set_option autoImplicit false

namespace LabelFlow

open Text Layout

/-- A line whose check needs the inputs of the node. -/
inductive Validator.Consults (v : Validator) (line : String) : Prop
  | forwarding (f : Forwarding) (read : Forwarding.parse? v.config.minNameLength line = some f)
      (present : ∀ n ∈ f.inputs.names, n.text ≠ "")
      (distinct : (f.inputs.names.map Name.text).Nodup)
  | assignment (a : Assignment) (read : Assignment.parse? v.config.minNameLength line = some a)
      (nested : WellNested line.toList) (term : ¬ Blank a.term.text.toList)
      (symbols : ∃ accesses,
        Access.ofTokens (Token.inside (Token.ofLine line) a.term.span) = .ok accesses)

/-! ## Forwarding -/

/-- The inputs of the node are needed exactly if no name is missing and none stands twice. -/
theorem Forwarding.needsInputs_analyze {minLength : Nat} {line : String} {f : Forwarding}
    (h : parse? minLength line = some f) : (f.analyze (Token.ofLine line)).needsInputs = true ↔
      (∀ n ∈ f.inputs.names, n.text ≠ "") ∧ (f.inputs.names.map Name.text).Nodup := by
  have hpresent : (∀ n ∈ f.inputs.names, n.text ≠ "") ↔
      ¬ f.inputs.names.any Name.isAbsent = true := by
    simp only [List.any_eq_true, Name.isAbsent, beq_iff_eq, not_exists, not_and, ne_eq]
  rw [hpresent]
  have hcheck := f.checked_analyze (Token.ofLine line)
  generalize f.analyze (Token.ofLine line) = analysis at hcheck
  obtain ⟨first, more, hps, hline, rfl⟩ := parse?_eq_some_iff.1 h
  have hdup := fun any => duplicates_eq_nil_iff ((NameList.inputNames_iff 12).2 ⟨hps, any⟩) hline
  cases hcheck with
  | unnamed all =>
    exact iff_of_false Bool.false_ne_true fun hpass => hpass.1 (NameList.any_of_all all)
  | missing all any => exact iff_of_false Bool.false_ne_true fun hpass => hpass.1 any
  | repeated any twice =>
    exact iff_of_false Bool.false_ne_true fun hpass => twice ((hdup any).2 hpass.2)
  | names any once => exact iff_of_true rfl ⟨any, (hdup any).1 once⟩

/-! ## Assignment -/

/-- The inputs of the node are needed exactly if the parentheses of the line nest and the term is
there and made of symbols. -/
theorem Assignment.needsInputs_analyze {catalog : Option Catalog} {line : String} {a : Assignment} :
    (a.analyze catalog (Token.ofLine line)).needsInputs = true ↔
      WellNested line.toList ∧ ¬ Blank a.term.text.toList ∧
        ∃ accesses, Access.ofTokens (Token.inside (Token.ofLine line) a.term.span) = .ok accesses := by
  rw [← parenFinding_eq_none_iff]
  have h := a.checked_analyze catalog (Token.ofLine line)
  generalize a.analyze catalog (Token.ofLine line) = analysis at h
  cases h with
  | unbalanced f paren =>
    refine iff_of_false Bool.false_ne_true fun hpass => ?_
    rw [hpass.1] at paren
    cases paren
  | blank _ term => exact iff_of_false Bool.false_ne_true fun hpass => hpass.2.1 term
  | fault _ _ error symbols =>
    refine iff_of_false Bool.false_ne_true fun hpass => ?_
    obtain ⟨accesses, hok⟩ := hpass.2.2
    rw [hok] at symbols
    cases symbols
  | labels paren term accesses symbols => exact iff_of_true rfl ⟨paren, term, accesses, symbols⟩

/-! ## Lines -/

namespace Validator

variable {v : Validator} {line : String}

theorem analyze_forwarding {f : Forwarding}
    (h : Forwarding.parse? v.config.minNameLength line = some f) :
    v.analyze line = f.analyze (Token.ofLine line) := by
  obtain ⟨first, more, -, hline, -⟩ := Forwarding.parse?_eq_some_iff.1 h
  rw [analyze, Forwarding.ofLine_of_layout hline, h]

theorem analyze_assignment {a : Assignment}
    (h : Assignment.parse? v.config.minNameLength line = some a) :
    v.analyze line = a.analyze v.catalog (Token.ofLine line) := by
  obtain ⟨l, -, hline, -⟩ := Assignment.parse?_eq_some_iff.1 h
  rw [analyze, Assignment.ofLine_of_layout hline, h]

/-- A line needs the inputs of the node exactly if its check comes that far. -/
theorem needsInputs_iff : (v.analyze line).needsInputs = true ↔ v.Consults line := by
  refine ⟨fun h => ?_, fun h => ?_⟩
  · have hcheck := v.checked_analyze line
    generalize v.analyze line = analysis at hcheck h
    cases hcheck with
    | forwarding _ f parts =>
      rw [Forwarding.needsInputs_analyze parts] at h
      exact .forwarding f parts h.1 h.2
    | assignment _ a parts =>
      rw [Assignment.needsInputs_analyze] at h
      exact .assignment a parts h.1 h.2.1 h.2.2
    | _ => cases h
  · cases h with
    | forwarding f read present distinct =>
      rw [analyze_forwarding read]
      exact (Forwarding.needsInputs_analyze read).2 ⟨present, distinct⟩
    | assignment a read nested term symbols =>
      rw [analyze_assignment read]
      exact Assignment.needsInputs_analyze.2 ⟨nested, term, symbols⟩

theorem asks_iff {lines : List String} : v.asks lines = true ↔ ∃ line ∈ lines, v.Consults line := by
  simp only [asks, List.any_eq_true, needsInputs_iff]

end Validator

/-- The node is asked lazily and once. On a node validating succeeds and asks at most once, namely
if some line needs the inputs; without one it fails exactly on such a text, and on any other it
gives what it gives on every node. -/
theorem validate_consults (v : Validator) (text : String) :
    (∀ inputs, ∃ o, v.validate text (.node inputs) = .ok o ∧ o.fetches ≤ 1 ∧
      (o.fetches = 1 ↔ ∃ line ∈ Text.lines text, v.Consults line)) ∧
    (v.validate text .missing = .error .notNode ↔ ∃ line ∈ Text.lines text, v.Consults line) ∧
    ((¬ ∃ line ∈ Text.lines text, v.Consults line) → ∃ o, v.validate text .missing = .ok o ∧
      ∀ inputs, v.validate text (.node inputs) = .ok o) := by
  rw [← Validator.asks_iff]
  refine ⟨fun inputs => ⟨_, v.validate_node text inputs, ?_⟩, ?_, fun hnone => ?_⟩
  · cases v.asks (Text.lines text) <;> simp
  · rw [v.validate_missing text [], v.validate_node]
    cases v.asks (Text.lines text) <;> simp
  · have hmissing : ∀ inputs, v.validate text .missing = v.validate text (.node inputs) := by
      intro inputs
      rw [v.validate_missing text inputs, if_neg hnone]
    refine ⟨_, (hmissing []).trans (v.validate_node text []), fun inputs => ?_⟩
    rw [← hmissing inputs, hmissing [], v.validate_node]

/-- A repeated name and an open parenthesis are reported without a node. -/
theorem validate_consults_unasked :
    (¬ ∃ line ∈ Text.lines "Forwarding(\x7ba,a\x7d)\nAssignment(\x7b\x7d;(TRUE;\x7b\x7d)",
      (Validator.standard none).Consults line) ∧
    ∃ o, (Validator.standard none).validate
        "Forwarding(\x7ba,a\x7d)\nAssignment(\x7b\x7d;(TRUE;\x7b\x7d)" .missing = .ok o ∧
      ∀ inputs, (Validator.standard none).validate
        "Forwarding(\x7ba,a\x7d)\nAssignment(\x7b\x7d;(TRUE;\x7b\x7d)" (.node inputs) = .ok o := by
  obtain ⟨-, hfails, hsame⟩ := validate_consults (.standard none)
    "Forwarding(\x7ba,a\x7d)\nAssignment(\x7b\x7d;(TRUE;\x7b\x7d)"
  have hnone := mt hfails.2 (by decide)
  exact ⟨hnone, hsame hnone⟩

end LabelFlow
