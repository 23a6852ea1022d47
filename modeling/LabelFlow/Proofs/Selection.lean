import LabelFlow.Proofs.Acceptance
import LabelFlow.Proofs.Columns

/-!
# Reports that are part of other reports

Two validators are compared line by line. If one finds in every line what the other finds there,
less some of it, then its report of a text is the report of the other, less the diagnostics of what
is left out (`Validator.validate_filter`). If both find the same, they do the same for every owner
(`Validator.validate_congr`).
-/

set_option autoImplicit false

namespace LabelFlow

/-! ## Analyses -/

/-- The analysis without the findings of the other problems. -/
def Analysis.keep (kept : Problem → Bool) (a : Analysis) : Analysis :=
  { a with findings := a.findings.filter fun f => kept f.problem }

namespace Analysis

variable {kept : Problem → Bool} {a : Analysis}

theorem keep_eq_self (h : ∀ f ∈ a.findings, kept f.problem = true) : a.keep kept = a := by
  rw [keep, List.filter_eq_self.2 h]

theorem found_keep (kept : Problem → Bool) (a : Analysis) (inputs : List String) :
    (a.keep kept).found inputs = (a.found inputs).filter fun f => kept f.problem := by
  unfold found
  by_cases h : a.needsInputs = true
  · rw [if_pos h, if_pos (show (a.keep kept).needsInputs = true from h), standing, standing, keep,
      List.filter_filter, List.filter_filter]
    simp only [Bool.and_comm]
  · rw [if_neg h, if_neg (show ¬ (a.keep kept).needsInputs = true from h), keep]

end Analysis

/-! ## Reports -/

namespace Validator

variable {v w : Validator}

/-- A report of less: a diagnostic is left out with its finding. -/
theorem validate_filter {inputs available : List String} {kept : Finding → Bool}
    {shown : Diagnostic → Bool}
    (hshown : ∀ f number line, shown (f.diagnostic number line) = kept f)
    (hneeds : ∀ line, (w.analyze line).needsInputs = (v.analyze line).needsInputs)
    (hfound : ∀ line,
      (w.analyze line).found available = ((v.analyze line).found inputs).filter kept)
    (text : String) : ∃ o, v.validate text (.node inputs) = .ok o ∧
      w.validate text (.node available) =
        .ok { o with diagnostics := o.diagnostics.filter shown } := by
  have hreport : ∀ number line,
      w.report available number line = (v.report inputs number line).filter shown := by
    intro number line
    have hkept : kept = shown ∘ fun f => f.diagnostic number line :=
      funext fun f => (hshown f number line).symm
    rw [report, report, List.filter_map, hfound, hkept]
  have hasks : w.asks (Text.lines text) = v.asks (Text.lines text) := by
    simp only [asks, hneeds]
  refine ⟨_, v.validate_node text inputs, ?_⟩
  rw [validate_node, hasks, List.filter_flatMap]
  simp only [hreport]

/-- Lines that are analyzed alike are visited alike. -/
theorem visitLines_congr (h : ∀ line, w.analyze line = v.analyze line) (owner : Owner) (q : Inquiry)
    (number : Nat) (lines : List String) :
    w.visitLines owner q number lines = v.visitLines owner q number lines := by
  induction lines generalizing q number with
  | nil => rfl
  | cons line lines ih =>
    have hvisit : w.visit owner q number line = v.visit owner q number line := by
      rw [visit_eq, visit_eq, h]
    rw [visitLines, visitLines, hvisit]
    simp only [ih]

theorem validate_congr (h : ∀ line, w.analyze line = v.analyze line) (text : String)
    (owner : Owner) : w.validate text owner = v.validate text owner := by
  rw [validate, validate, visitLines_congr h]

end Validator

end LabelFlow
