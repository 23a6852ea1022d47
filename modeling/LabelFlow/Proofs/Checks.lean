import LabelFlow.Proofs.Analysis
import LabelFlow.Proofs.Layout

/-!
# What a check comes to

All that the check of a statement and that of a line can come to, and when. Proofs about a check go
over these cases and do not unfold it.
-/

set_option autoImplicit false

namespace LabelFlow

namespace Forwarding

/-- What the check of a Forwarding statement comes to. -/
inductive Checked (tokens : List Token) (f : Forwarding) : Analysis → Prop
  | unnamed (all : f.inputs.names.all Name.isAbsent = true) :
      Checked tokens f (.stopAt [.wholeLine .forwardWithoutInputs])
  | missing (all : ¬ f.inputs.names.all Name.isAbsent = true)
      (any : f.inputs.names.any Name.isAbsent = true) :
      Checked tokens f (.stopAt [⟨.trailingComma, f.inputs.blamedComma⟩])
  | repeated (any : ¬ f.inputs.names.any Name.isAbsent = true)
      (twice : duplicates tokens f.inputs ≠ []) :
      Checked tokens f (.stopAt (duplicates tokens f.inputs))
  | names (any : ¬ f.inputs.names.any Name.isAbsent = true)
      (once : duplicates tokens f.inputs = []) :
      Checked tokens f ⟨f.inputs.distinct.map fun name =>
        ⟨.unknownInput name, Token.firstPlaceOf (Token.inside tokens f.inputs.span) name⟩, true⟩

theorem checked_analyze (tokens : List Token) (f : Forwarding) :
    f.Checked tokens (f.analyze tokens) := by
  simp only [analyze]
  split
  · rename_i all
    exact .unnamed all
  split
  · rename_i all any
    exact .missing all any
  split
  · rename_i any twice
    exact .repeated any twice
  · rename_i any once
    exact .names any (Decidable.not_not.1 once)

/-- A finding is about the form of the list or about a name, which is found unknown only where the
inputs are asked for. -/
theorem problem_of_mem {tokens : List Token} {s : Forwarding} {f : Finding}
    (hf : f ∈ (s.analyze tokens).findings) :
    f.problem = .forwardWithoutInputs ∨ f.problem = .trailingComma ∨
      (∃ name, f.problem = .duplicateInput name) ∨
        (s.analyze tokens).needsInputs = true ∧ ∃ name, f.problem = .unknownInput name := by
  have hcheck := s.checked_analyze tokens
  generalize s.analyze tokens = analysis at hcheck hf
  cases hcheck with
  | unnamed =>
    obtain rfl := List.mem_singleton.1 hf
    exact .inl rfl
  | missing =>
    obtain rfl := List.mem_singleton.1 hf
    exact .inr (.inl rfl)
  | repeated =>
    obtain ⟨name, -, hf⟩ := List.mem_flatMap.1 hf
    obtain ⟨place, -, rfl⟩ := List.mem_map.1 hf
    exact .inr (.inr (.inl ⟨name, rfl⟩))
  | names =>
    obtain ⟨name, -, rfl⟩ := List.mem_map.1 hf
    exact .inr (.inr (.inr ⟨rfl, name, rfl⟩))

end Forwarding

namespace Assignment

/-- What the check of an Assignment statement comes to. -/
inductive Checked (catalog : Option Catalog) (tokens : List Token) (a : Assignment) : Analysis → Prop
  | unbalanced (f : Finding) (paren : parenFinding 0 tokens = some f) :
      Checked catalog tokens a (.stopAt [f])
  | blank (paren : parenFinding 0 tokens = none) (term : Text.Blank a.term.text.toList) :
      Checked catalog tokens a (.stopAt [.wholeLine .missingTerm])
  | fault (paren : parenFinding 0 tokens = none) (term : ¬ Text.Blank a.term.text.toList)
      (error : TermFault) (symbols : Access.ofTokens (Token.inside tokens a.term.span) = .error error) :
      Checked catalog tokens a (.stopAt [.wholeLine .invalidTerm])
  | labels (paren : parenFinding 0 tokens = none) (term : ¬ Text.Blank a.term.text.toList)
      (accesses : List Access)
      (symbols : Access.ofTokens (Token.inside tokens a.term.span) = .ok accesses) :
      Checked catalog tokens a
        ⟨(a.problems catalog accesses).eraseDups.flatMap (a.findings tokens), true⟩

theorem checked_analyze (catalog : Option Catalog) (tokens : List Token) (a : Assignment) :
    a.Checked catalog tokens (a.analyze catalog tokens) := by
  have hblank : a.term.text.toList.all Text.isBlank = true ↔ Text.Blank a.term.text.toList :=
    List.all_eq_true
  unfold analyze
  split
  · rename_i f paren
    exact .unbalanced f paren
  rename_i paren
  split
  · rename_i term
    exact .blank paren (hblank.1 term)
  rename_i term
  rw [hblank] at term
  split
  · rename_i error symbols
    exact .fault paren term error symbols
  · rename_i accesses symbols
    exact .labels paren term accesses symbols

theorem problem_of_mem_findings {tokens : List Token} {a : Assignment} {p : Problem}
    {f : Finding} (h : f ∈ a.findings tokens p) : f.problem = p := by
  unfold findings at h
  split at h
  · obtain ⟨s, -, rfl⟩ := List.mem_map.1 h
    rfl
  · obtain ⟨s, -, rfl⟩ := List.mem_map.1 h
    rfl
  · rw [List.mem_singleton.1 h]
  · rw [List.mem_singleton.1 h]
    rfl

end Assignment

namespace Validator

/-- What the check of a line comes to. -/
inductive Checked (v : Validator) (line : String) : Analysis → Prop
  | blank (form : LineForm.ofLine line = .blank) : Checked v line .clean
  | comment (form : LineForm.ofLine line = .comment) : Checked v line .clean
  | unknown (form : LineForm.ofLine line = .unknown) :
      Checked v line (.stopAt [.wholeLine .unknownStatement])
  | noForwarding (form : LineForm.ofLine line = .forwarding)
      (parts : Forwarding.parse? v.config.minNameLength line = none) :
      Checked v line (.stopAt [.wholeLine .invalidForwarding])
  | forwarding (form : LineForm.ofLine line = .forwarding) (f : Forwarding)
      (parts : Forwarding.parse? v.config.minNameLength line = some f) :
      Checked v line (f.analyze (Token.ofLine line))
  | noAssignment (form : LineForm.ofLine line = .assignment)
      (parts : Assignment.parse? v.config.minNameLength line = none) :
      Checked v line (.stopAt [.wholeLine .invalidAssignment])
  | assignment (form : LineForm.ofLine line = .assignment) (a : Assignment)
      (parts : Assignment.parse? v.config.minNameLength line = some a) :
      Checked v line (a.analyze v.catalog (Token.ofLine line))

theorem checked_analyze (v : Validator) (line : String) : v.Checked line (v.analyze line) := by
  unfold analyze
  split
  · rename_i form
    exact .blank form
  · rename_i form
    exact .comment form
  · rename_i form
    exact .unknown form
  · rename_i form
    split
    · rename_i parts
      exact .noForwarding form parts
    · rename_i f parts
      exact .forwarding form f parts
  · rename_i form
    split
    · rename_i parts
      exact .noAssignment form parts
    · rename_i a parts
      exact .assignment form a parts

end Validator

end LabelFlow
