import LabelFlow.Proofs.Selection

/-!
# What the inputs of the node change

The inputs of the node decide about nothing but the names that the node lacks. The loops over the
names of a statement pass over those that are available before they look for a place, which comes to
what stays of all findings (`NumberedLine.reportUnavailable_eq`). So with more inputs a report is the
same, less the diagnostics of names that the node now has (`Validator.validate_more`).
-/

set_option autoImplicit false

namespace LabelFlow

/-- Reports that the node has no input of this name. -/
def Diagnostic.LacksInput (d : Diagnostic) (name : String) : Prop :=
  d.id = "BHV2002" ∧ d.value? "input" = some name

instance (d : Diagnostic) (name : String) : Decidable (d.LacksInput name) :=
  inferInstanceAs (Decidable (d.id = "BHV2002" ∧ d.value? "input" = some name))

namespace Finding

variable {f : Finding}

theorem lacksInput_iff {number : Nat} {line name : String} :
    (f.diagnostic number line).LacksInput name ↔ f.problem = .unknownInput name := by
  obtain ⟨p, s⟩ := f
  cases p <;> simp [Diagnostic.LacksInput, diagnostic, Diagnostic.value?, Problem.code, Code.id,
    Problem.context?, Context.ofList, Context.find?_insert]

theorem stands_iff {inputs : List String} :
    f.stands inputs = true ↔ ∀ name ∈ inputs, f.problem ≠ .unknownInput name := by
  rw [← Bool.not_eq_false, stands_eq_false_iff]
  simp only [not_exists, not_and, ne_eq]

/-- A finding stays exactly if its diagnostic is about none of the inputs. -/
theorem stands_eq_decide (inputs : List String) (number : Nat) (line : String) :
    decide (∀ name ∈ inputs, ¬ (f.diagnostic number line).LacksInput name) = f.stands inputs := by
  rw [Bool.eq_iff_iff, decide_eq_true_iff, stands_iff]
  simp only [lacksInput_iff, ne_eq]

/-- What stays on a node stays on one with fewer inputs. -/
theorem stands_of_subset {inputs more : List String} (hsub : inputs ⊆ more)
    (h : f.stands more = true) : f.stands inputs = true :=
  stands_iff.2 fun name hname => stands_iff.1 h name (hsub hname)

end Finding

namespace Validator

variable {v : Validator} {line : String}

/-- An input is found unknown only where the inputs are asked for. -/
theorem needsInputs_of_unknownInput {f : Finding} {name : String}
    (hf : f ∈ (v.analyze line).findings) (hp : f.problem = .unknownInput name) :
    (v.analyze line).needsInputs = true := by
  have hcheck := v.checked_analyze line
  generalize v.analyze line = analysis at hcheck hf
  cases hcheck with
  | blank | comment => cases hf
  | unknown | noForwarding | noAssignment =>
    obtain rfl := List.mem_singleton.1 hf
    cases hp
  | forwarding =>
    obtain h | h | ⟨_, h⟩ | ⟨hneeds, -⟩ := Forwarding.problem_of_mem hf
    · cases hp.symm.trans h
    · cases hp.symm.trans h
    · cases hp.symm.trans h
    · exact hneeds
  | assignment _ a =>
    have hcheck := a.checked_analyze v.catalog (Token.ofLine line)
    generalize a.analyze v.catalog (Token.ofLine line) = analysis at hcheck hf
    cases hcheck with
    | unbalanced g paren =>
      obtain rfl := List.mem_singleton.1 hf
      obtain rfl | ⟨t, -, -, rfl⟩ := Assignment.parenFinding_eq_some paren <;> cases hp
    | blank | fault =>
      obtain rfl := List.mem_singleton.1 hf
      cases hp
    | labels => rfl

/-- With more inputs, what stays is left of what stayed before. -/
theorem found_more {inputs more : List String} (hsub : inputs ⊆ more) :
    (v.analyze line).found more = ((v.analyze line).found inputs).filter (Finding.stands more) := by
  unfold Analysis.found
  by_cases hneeds : (v.analyze line).needsInputs = true
  · rw [if_pos hneeds, if_pos hneeds, Analysis.standing, Analysis.standing, List.filter_filter]
    refine List.filter_congr fun f _ => ?_
    cases h : f.stands more with
    | false => rfl
    | true => rw [Finding.stands_of_subset hsub h, Bool.and_true]
  · rw [if_neg hneeds, if_neg hneeds]
    -- no finding of such a line is an unknown input, so the filter keeps them all
    refine (List.filter_eq_self.2 fun f hf => Finding.stands_iff.2 fun name _ hp => ?_).symm
    exact hneeds (needsInputs_of_unknownInput hf hp)

/-- With more inputs a text gives the same, less the diagnostics of the names among them. -/
theorem validate_more (v : Validator) (text : String) {inputs more : List String}
    (hsub : inputs ⊆ more) : ∃ o, v.validate text (.node inputs) = .ok o ∧
      v.validate text (.node more) = .ok { o with
        diagnostics := o.diagnostics.filter fun d => ∀ name ∈ more, ¬ d.LacksInput name } :=
  validate_filter (fun _ number line => Finding.stands_eq_decide more number line) (fun _ => rfl)
    (fun _ => found_more hsub) text

end Validator

/-- The inputs of the node only filter: on a node with inputs a text gives what it gives on one
without, in the same order, less the diagnostics of unknown inputs with these names. So the order of
the inputs and how often each is listed make no difference, and a node with more inputs has some of
the diagnostics of one with fewer, where they were. -/
theorem available_inputs_filter (v : Validator) (text : String) (inputs : List String) :
    (∃ o, v.validate text (.node []) = .ok o ∧
      v.validate text (.node inputs) = .ok { o with
        diagnostics := o.diagnostics.filter fun d => ∀ name ∈ inputs, ¬ d.LacksInput name }) ∧
    (∀ same, (∀ name, name ∈ same ↔ name ∈ inputs) →
      v.validate text (.node same) = v.validate text (.node inputs)) ∧
    ∀ more, inputs ⊆ more → ∃ o fewer, v.validate text (.node inputs) = .ok o ∧
      v.validate text (.node more) = .ok fewer ∧ fewer.diagnostics.Sublist o.diagnostics := by
  refine ⟨v.validate_more text (List.nil_subset inputs), fun same hsame => ?_, fun more hsub => ?_⟩
  · obtain ⟨o, ho, hinputs⟩ := v.validate_more text (List.nil_subset inputs)
    obtain ⟨o', ho', hequal⟩ := v.validate_more text (List.nil_subset same)
    obtain rfl : o = o' := Except.ok.inj (ho.symm.trans ho')
    rw [hinputs, hequal]
    simp only [hsame]
  · obtain ⟨o, ho, hmore⟩ := v.validate_more text hsub
    exact ⟨o, _, ho, hmore, List.filter_sublist⟩

/-- Two unknown inputs in statements of both forms, of which one turns out to be there, in another
order and twice. -/
theorem available_inputs_filter_two :
    (Validator.standard none).validate
        "Forwarding(\x7ba,b\x7d)\nAssignment(\x7bb,a,b\x7d;TRUE;\x7b\x7d)" (.node ["c", "b", "c"]) =
      (Validator.standard none).validate
        "Forwarding(\x7ba,b\x7d)\nAssignment(\x7bb,a,b\x7d;TRUE;\x7b\x7d)" (.node ["b", "c"]) ∧
    ∃ o fewer,
      (Validator.standard none).validate
        "Forwarding(\x7ba,b\x7d)\nAssignment(\x7bb,a,b\x7d;TRUE;\x7b\x7d)" (.node []) = .ok o ∧
      (Validator.standard none).validate
        "Forwarding(\x7ba,b\x7d)\nAssignment(\x7bb,a,b\x7d;TRUE;\x7b\x7d)" (.node ["b", "c"]) =
          .ok fewer ∧
      fewer.diagnostics.Sublist o.diagnostics ∧
      o.diagnostics.map (Diagnostic.value? · "input") = [some "a", some "b", some "b", some "a"] ∧
      fewer.diagnostics.map (Diagnostic.value? · "input") = [some "a", some "a"] := by
  obtain ⟨-, hsame, -⟩ := available_inputs_filter (.standard none)
    "Forwarding(\x7ba,b\x7d)\nAssignment(\x7bb,a,b\x7d;TRUE;\x7b\x7d)" ["b", "c"]
  obtain ⟨-, -, hmore⟩ := available_inputs_filter (.standard none)
    "Forwarding(\x7ba,b\x7d)\nAssignment(\x7bb,a,b\x7d;TRUE;\x7b\x7d)" []
  obtain ⟨o, fewer, ho, hfewer, hsub⟩ := hmore ["b", "c"] (List.nil_subset _)
  refine ⟨hsame ["c", "b", "c"] (by simp [or_comm]), o, fewer, ho, hfewer, hsub, ?_, ?_⟩
  · rw [Validator.validate_node] at ho
    cases ho
    rfl
  · rw [Validator.validate_node] at hfewer
    cases hfewer
    rfl

end LabelFlow
