import LabelFlow.Proofs.Accumulation

/-!
# Validating line by line

On a node validating succeeds: every line gives what it gives by itself (`Validator.report`), and
the inputs are asked for by the first line that needs them (`Validator.validate_node`). Without a
node such a line is an error, and a text that has none gives what it gives on any node
(`Validator.validate_missing`).
-/

set_option autoImplicit false

namespace LabelFlow

/-- What is known after the inputs may have been asked for. -/
def Inquiry.after (q : Inquiry) (inputs : List String) (asked : Bool) : Inquiry :=
  if asked && q.known.isNone then ⟨some inputs, q.fetches + 1⟩ else q

/-- The findings of a line on a node with the given inputs. -/
def Analysis.found (a : Analysis) (inputs : List String) : List Finding :=
  if a.needsInputs then a.standing inputs else a.findings

namespace Validator

/-- Needs one of the lines the inputs of the node. -/
def asks (v : Validator) (lines : List String) : Bool :=
  lines.any fun line => (v.analyze line).needsInputs

/-- The diagnostics of a numbered line on a node with the given inputs. -/
def report (v : Validator) (inputs : List String) (number : Nat) (line : String) :
    List Diagnostic :=
  ((v.analyze line).found inputs).map fun f => f.diagnostic number line

variable {v : Validator} {inputs : List String} {q : Inquiry}

theorem ask_node (hq : ∀ known ∈ q.known, known = inputs) :
    q.ask (.node inputs) = .ok (inputs, q.after inputs true) := by
  obtain ⟨known, fetches⟩ := q
  cases known with
  | none => rfl
  | some known =>
    obtain rfl := hq known rfl
    rfl

theorem known_after (hq : ∀ known ∈ q.known, known = inputs) (asked : Bool) :
    ∀ known ∈ (q.after inputs asked).known, known = inputs := by
  unfold Inquiry.after
  split
  · intro known h
    exact (Option.some.inj h).symm
  · exact hq

theorem after_after (q : Inquiry) (inputs : List String) (a b : Bool) :
    (q.after inputs a).after inputs b = q.after inputs (a || b) := by
  obtain ⟨known, fetches⟩ := q
  cases a <;> cases b <;> cases known <;> rfl

/-- The inputs are asked for at most once. -/
theorem fetches_start (inputs : List String) (asked : Bool) :
    (Inquiry.start.after inputs asked).fetches = asked.toNat := by
  cases asked <;> rfl

/-! ## On a node -/

theorem visit_node (hq : ∀ known ∈ q.known, known = inputs) (number : Nat) (line : String) :
    v.visit (.node inputs) q number line =
      .ok (v.report inputs number line, q.after inputs (v.analyze line).needsInputs) := by
  rw [visit_eq, Analysis.outcome, report, Analysis.found]
  by_cases hneeds : (v.analyze line).needsInputs = true
  · simp only [hneeds, if_true, ask_node hq]
    rfl
  · simp only [hneeds]
    rfl

/-- The lines are reported one by one, and the inputs are asked for once. -/
theorem visitLines_node (hq : ∀ known ∈ q.known, known = inputs) (number : Nat)
    (lines : List String) : v.visitLines (.node inputs) q number lines =
      .ok ((lines.zipIdx number).flatMap (fun e => v.report inputs e.2 e.1),
        q.after inputs (v.asks lines)) := by
  induction lines generalizing q number with
  | nil => rfl
  | cons line lines ih =>
    rw [visitLines, visit_node hq]
    simp only [bind, Except.bind, ih (known_after hq _), after_after]
    rfl

/-- Validating on a node reports every line by itself. -/
theorem validate_node (v : Validator) (text : String) (inputs : List String) :
    v.validate text (.node inputs) =
      .ok ⟨(Text.lines text).zipIdx.flatMap fun e => v.report inputs e.2 e.1,
        (v.asks (Text.lines text)).toNat⟩ := by
  have hstart : ∀ known ∈ Inquiry.start.known, known = inputs := nofun
  rw [validate, visitLines_node hstart]
  simp only [bind, Except.bind, fetches_start]

/-! ## Without a node -/

theorem ask_missing (hq : q.known = none) : q.ask .missing = .error .notNode := by
  obtain ⟨known, fetches⟩ := q
  cases hq
  rfl

theorem visit_missing (hq : q.known = none) (inputs : List String) (number : Nat) (line : String) :
    v.visit .missing q number line =
      if (v.analyze line).needsInputs then .error .notNode
      else .ok (v.report inputs number line, q) := by
  rw [visit_eq, Analysis.outcome, report, Analysis.found]
  by_cases hneeds : (v.analyze line).needsInputs = true
  · simp only [hneeds, if_true, ask_missing hq]
    rfl
  · simp only [hneeds]
    rfl

/-- The lines are reported as on any node if none of them needs its inputs. -/
theorem visitLines_missing (hq : q.known = none) (inputs : List String) (number : Nat)
    (lines : List String) : v.visitLines .missing q number lines =
      if v.asks lines then .error .notNode
      else .ok ((lines.zipIdx number).flatMap (fun e => v.report inputs e.2 e.1), q) := by
  -- nothing becomes known without a node, so `q` is the same before every line
  induction lines generalizing number with
  | nil => rfl
  | cons line lines ih =>
    have hasks : v.asks (line :: lines) = ((v.analyze line).needsInputs || v.asks lines) := rfl
    rw [visitLines, visit_missing hq inputs, hasks]
    cases (v.analyze line).needsInputs with
    | true => rfl
    | false =>
      simp only [bind, Except.bind, Bool.false_eq_true, if_false, ih, Bool.false_or]
      cases v.asks lines <;> rfl

/-- Without a node validating fails if a line needs inputs, else it is as on any node. -/
theorem validate_missing (v : Validator) (text : String) (inputs : List String) :
    v.validate text .missing =
      if v.asks (Text.lines text) then .error .notNode else v.validate text (.node inputs) := by
  rw [validate, visitLines_missing rfl inputs, validate_node]
  cases v.asks (Text.lines text) <;> rfl

/-- What is returned is returned on some node. -/
theorem exists_node {text : String} {owner : Owner} {o : Outcome}
    (h : v.validate text owner = .ok o) : ∃ inputs, v.validate text (.node inputs) = .ok o := by
  cases owner with
  | node inputs => exact ⟨inputs, h⟩
  | missing =>
    rw [validate_missing v text []] at h
    split at h
    · cases h
    · exact ⟨[], h⟩

/-- A diagnostic is one of a finding of its line. -/
theorem mem_diagnostics {text : String} {owner : Owner} {o : Outcome}
    (h : v.validate text owner = .ok o) {d : Diagnostic} (hd : d ∈ o.diagnostics) :
    ∃ line, (Text.lines text)[d.line]? = some line ∧
      ∃ f ∈ (v.analyze line).findings, d = f.diagnostic d.line line := by
  obtain ⟨inputs, h⟩ := exists_node h
  rw [validate_node] at h
  obtain rfl := (Except.ok.inj h).symm
  obtain ⟨⟨line, i⟩, he, hd⟩ := List.mem_flatMap.1 hd
  obtain ⟨f, hf, rfl⟩ := List.mem_map.1 hd
  refine ⟨line, List.mk_mem_zipIdx_iff_getElem?.1 he, f, ?_, rfl⟩
  unfold Analysis.found at hf
  split at hf
  · exact (List.mem_filter.1 hf).1
  · exact hf

end Validator

end LabelFlow
