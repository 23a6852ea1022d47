import LabelFlow.Proofs.Findings
import LabelFlow.Proofs.Run

/-!
# What diagnostics underline

`diagnostics_underline`: the columns of a diagnostic cut out of its line the name, the comma or the
parenthesis that it is about, and those of every other diagnostic are the whole line.
-/

set_option autoImplicit false

namespace LabelFlow

namespace Diagnostic

/-- The value of a key of the context. -/
def value? (d : Diagnostic) (key : String) : Option String := d.context.bind fun c => c.find? key

/-- The text of a diagnostic's line from one column to another is what its code is about. -/
structure Underlines (d : Diagnostic) (line : String) (start stop : Nat) (marked : String) :
    Prop where
  input : d.id = "BHV2001" ∨ d.id = "BHV2002" → d.value? "input" = some marked
  labelType : d.id = "BHV2101" → d.value? "labelType" = some marked
  labelValue : d.id = "BHV2102" → d.value? "labelValue" = some marked
  comma : d.id = "BHV1103" → marked = ","
  paren : d.id = "BHV1202" → marked = ")"
  other : d.id ∉ ["BHV2001", "BHV2002", "BHV2101", "BHV2102", "BHV1103", "BHV1202"] →
    (start, stop) = (0, line.length)

end Diagnostic

/-- The characters from one column up to another. -/
def Text.slice (line : String) (start stop : Nat) : String :=
  .ofList ((line.toList.drop start).take (stop - start))

/-- The columns of a span cut out the text that stands at it, which is not empty. -/
theorem Span.Covers.slice_columns {s : Span} {line text : String}
    (h : s.Covers line.toList text.toList) (hne : text.toList ≠ []) :
    (s.columns line).1 < (s.columns line).2 ∧ (s.columns line).2 ≤ line.length ∧
      Text.slice line (s.columns line).1 (s.columns line).2 = text := by
  obtain ⟨hstop, hle, hcut⟩ := h.columns_cut
  have hpos := List.length_pos_iff.2 hne
  refine ⟨by omega, hle, ?_⟩
  rw [Text.slice, hstop, Nat.add_sub_cancel_left, hcut, String.ofList_toList]

namespace Finding

variable {f : Finding} {line : String}

theorem columns_of_quoted {text : String} (h : f.Marks line.toList)
    (hq : f.problem.quoted? = some text) : (f.columns line).1 < (f.columns line).2 ∧
      (f.columns line).2 ≤ line.length ∧
        Text.slice line (f.columns line).1 (f.columns line).2 = text := by
  rw [Marks, hq] at h
  obtain ⟨hne, s, hs, hcover⟩ := h
  rw [columns, hs]
  exact hcover.slice_columns hne

theorem columns_of_not_quoted (h : f.Marks line.toList) (hq : f.problem.quoted? = none) :
    0 < line.length ∧ f.columns line = (0, line.length) := by
  rw [Marks, hq] at h
  obtain ⟨hne, hs⟩ := h
  refine ⟨?_, by rw [columns, hs]⟩
  rw [← String.length_toList]
  exact List.length_pos_iff.2 hne

end Finding

/-- A diagnostic of a problem that quotes a text has it under the key of its code. -/
theorem Finding.underlines_of_quoted {f : Finding} {text : String}
    (hq : f.problem.quoted? = some text) (number : Nat) (line : String) (start stop : Nat) :
    (f.diagnostic number line).Underlines line start stop text := by
  obtain ⟨p, s⟩ := f
  cases p <;> cases hq <;> constructor <;>
    simp [diagnostic, Diagnostic.value?, Problem.code, Code.id, Problem.context?, Context.ofList,
      Context.find?_insert]

theorem Finding.underlines_of_not_quoted {f : Finding} (hq : f.problem.quoted? = none)
    (number : Nat) (line marked : String) :
    (f.diagnostic number line).Underlines line 0 line.length marked := by
  obtain ⟨p, s⟩ := f
  cases p <;> cases hq <;> constructor <;> simp [diagnostic, Problem.code, Code.id]

/-- Every diagnostic on a node is at a line of the text, its columns are a stretch of the line, and
the stretch is what the diagnostic is about. -/
theorem diagnostics_underline (v : Validator) (text : String) (inputs : List String) :
    ∃ o, v.validate text (.node inputs) = .ok o ∧ ∀ d ∈ o.diagnostics, ∃ line start stop,
      (Text.lines text)[d.line]? = some line ∧ d.colStart = some start ∧ d.colEnd = some stop ∧
        start < stop ∧ stop ≤ line.length ∧
          d.Underlines line start stop (Text.slice line start stop) := by
  refine ⟨_, v.validate_node text inputs, fun d hd => ?_⟩
  obtain ⟨line, hline, f, hf, hdiag⟩ := Validator.mem_diagnostics (v.validate_node text inputs) hd
  have hmarks := v.marks_analyze line hf
  refine ⟨line, (f.columns line).1, (f.columns line).2, hline, ?_, ?_, ?_⟩
  · rw [hdiag]
    rfl
  · rw [hdiag]
    rfl
  cases hq : f.problem.quoted? with
  | some text =>
    obtain ⟨hlt, hle, hslice⟩ := Finding.columns_of_quoted hmarks hq
    rw [hslice, hdiag]
    exact ⟨hlt, hle, Finding.underlines_of_quoted hq d.line line _ _⟩
  | none =>
    obtain ⟨hpos, hcols⟩ := Finding.columns_of_not_quoted hmarks hq
    rw [hcols, hdiag]
    exact ⟨hpos, Nat.le_refl _, Finding.underlines_of_not_quoted hq d.line line _⟩

/-- The comma behind which an input is missing, on the second line. -/
theorem diagnostics_underline_comma : ∃ o,
    (Validator.standard none).validate "\nForwarding(\x7ba, \x7d)" (.node []) = .ok o ∧
      o.diagnostics.map (fun d => (d.line, d.colStart, d.colEnd)) = [(1, some 13, some 14)] := by
  obtain ⟨o, ho, -⟩ := diagnostics_underline (.standard none) "\nForwarding(\x7ba, \x7d)" []
  refine ⟨o, ho, ?_⟩
  cases ho
  rfl

end LabelFlow
