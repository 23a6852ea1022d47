import LabelFlow.Proofs.Columns

/-!
# The discipline of reports

A report goes through the lines in order and says nothing twice. A line of a wrong form has one
diagnostic; names that are repeated hide everything else about their line and are reported wherever
they stand (`Diagnostic.Disciplined`). `report_discipline` says so of every text.
-/

set_option autoImplicit false

namespace LabelFlow

/-- What holds of all diagnostics of one line: one about its form stands alone, repeated names stand
among themselves and at least twice each, and label definitions are objected to once. -/
structure Diagnostic.Disciplined (ds : List Diagnostic) : Prop where
  form : ∀ d ∈ ds, "BHV1".toList <+: d.id.toList → ds = [d]
  repeated : ∀ d ∈ ds, d.id = "BHV2001" → (∀ e ∈ ds, e.id = "BHV2001") ∧
    ∃ name, d.value? "input" = some name ∧ 2 ≤ ds.countP fun e => e.value? "input" == some name
  definition : (ds.countP fun d => d.id == "BHV2103") ≤ 1

/-! ## Stages of a check -/

/-- A check looks for problems in stages, and goes on to the next one if it finds none. -/
inductive Stage
  | form | repetition | content
deriving DecidableEq, Repr

/-- The stage in which a problem of this kind is found. -/
def Code.stage : Code → Stage
  | .duplicateInput => .repetition
  | .unknownInput | .unknownLabelType | .unknownLabelValue | .invalidLabelDefinition => .content
  | _ => .form

theorem Code.stage_eq_form_iff (c : Code) : c.stage = .form ↔ "BHV1".toList <+: c.id.toList := by
  cases c <;> decide

theorem Code.stage_eq_repetition_iff (c : Code) : c.stage = .repetition ↔ c.id = "BHV2001" := by
  cases c <;> decide

/-- The findings of a line are of one stage; of the form, there is just one. -/
inductive Analysis.Staged : Analysis → Prop
  | form (f : Finding) (stage : f.problem.code.stage = .form) : Staged (.stopAt [f])
  | repetition (fs : List Finding) (twice : ∀ f ∈ fs, ∃ name, f.problem = .duplicateInput name ∧
      1 < fs.countP fun g => g.problem == .duplicateInput name) : Staged (.stopAt fs)
  | content (a : Analysis) (stage : ∀ f ∈ a.findings, f.problem.code.stage = .content) : Staged a

/-- What is left over is part of what was found. -/
theorem Analysis.found_sublist (a : Analysis) (inputs : List String) :
    (a.found inputs).Sublist a.findings := by
  unfold found
  split
  · exact List.filter_sublist
  · exact List.Sublist.refl _

/-- A Forwarding statement is checked in stages. -/
theorem Forwarding.staged_analyze {minLength : Nat} {line : String} {f : Forwarding}
    (h : parse? minLength line = some f) : (f.analyze (Token.ofLine line)).Staged := by
  have hcheck := f.checked_analyze (Token.ofLine line)
  generalize f.analyze (Token.ofLine line) = analysis at hcheck
  obtain ⟨first, more, hps, hline, rfl⟩ := parse?_eq_some_iff.1 h
  cases hcheck with
  | unnamed | missing => exact .form _ rfl
  | repeated any =>
    have hnames := (NameList.inputNames_iff 12).2 ⟨hps, any⟩
    refine .repetition _ fun f hf => ?_
    obtain ⟨name, hname, hf⟩ := List.mem_flatMap.1 hf
    obtain ⟨s, -, rfl⟩ := List.mem_map.1 hf
    refine ⟨name, rfl, Nat.lt_of_lt_of_le (Layout.places_repeated hnames hline hname) ?_⟩
    -- the places of this name are a part of what is found
    have hpart := List.sublist_flatten_of_mem (List.mem_map_of_mem (f := fun name =>
      (Token.placesOf (Token.inside (Token.ofLine line) (Layout.nameList 12 first more).span) name
        .identifier).map fun s => Finding.mk (.duplicateInput name) (some s)) hname)
    rw [← List.flatMap_def] at hpart
    refine Nat.le_trans (Nat.le_of_eq ?_) hpart.countP_le
    rw [List.countP_map, List.countP_eq_length.2 fun s _ => ?_]
    exact beq_self_eq_true (Problem.duplicateInput name)
  | names =>
    refine .content _ fun f hf => ?_
    obtain ⟨name, -, rfl⟩ := List.mem_map.1 hf
    rfl

/-- An Assignment statement is checked in stages. -/
theorem Assignment.staged_analyze (catalog : Option Catalog) (tokens : List Token)
    (a : Assignment) : (a.analyze catalog tokens).Staged := by
  have hcheck := a.checked_analyze catalog tokens
  generalize a.analyze catalog tokens = analysis at hcheck
  cases hcheck with
  | unbalanced f paren =>
    refine .form f ?_
    rcases parenFinding_eq_some paren with rfl | ⟨t, -, -, rfl⟩ <;> rfl
  | blank | fault => exact .form _ rfl
  | labels =>
    refine .content _ fun f hf => ?_
    obtain ⟨p, hp, hf⟩ := List.mem_flatMap.1 hf
    rw [problem_of_mem_findings hf]
    obtain ⟨n, -, rfl⟩ | rfl | ⟨l, -, rfl | ⟨-, rfl⟩⟩ := mem_problems (List.mem_eraseDups.1 hp) <;>
      rfl

/-- Every line is checked in stages. -/
theorem Validator.staged_analyze (v : Validator) (line : String) : (v.analyze line).Staged := by
  have hcheck := v.checked_analyze line
  generalize v.analyze line = analysis at hcheck
  cases hcheck with
  | blank | comment => exact .content _ nofun
  | unknown | noForwarding | noAssignment => exact .form _ rfl
  | forwarding _ f parts => exact Forwarding.staged_analyze parts
  | assignment _ a => exact a.staged_analyze v.catalog _

/-! ## Diagnostics of a line -/

/-- The diagnostic of a repeated name has the name in its context. -/
theorem Finding.value?_duplicate {f : Finding} {name : String}
    (h : f.problem = .duplicateInput name) (number : Nat) (line : String) :
    (f.diagnostic number line).value? "input" = some name :=
  (underlines_of_quoted (congrArg Problem.quoted? h) number line 0 0).input
    (.inl (congrArg (fun p => p.code.id) h))

/-- The diagnostics of a line that is checked in stages are disciplined, if it has one finding about
a label definition at most. -/
theorem Analysis.Staged.disciplined {a : Analysis} (h : a.Staged) {inputs : List String}
    (hdefinition : ((a.found inputs).countP fun f => f.problem == .invalidLabelDefinition) ≤ 1)
    (number : Nat) (line : String) :
    Diagnostic.Disciplined ((a.found inputs).map fun f => f.diagnostic number line) where
  form d hd hform := by
    obtain ⟨f, hf, rfl⟩ := List.mem_map.1 hd
    have hstage := f.problem.code.stage_eq_form_iff.2 hform
    cases h with
    | form g =>
      obtain rfl := List.mem_singleton.1 hf
      rfl
    | repetition fs twice =>
      obtain ⟨name, hproblem, -⟩ := twice f hf
      rw [hproblem] at hstage
      cases hstage
    | content a stage =>
      rw [stage f ((a.found_sublist inputs).subset hf)] at hstage
      cases hstage
  repeated d hd hid := by
    obtain ⟨f, hf, rfl⟩ := List.mem_map.1 hd
    have hstage := f.problem.code.stage_eq_repetition_iff.2 hid
    cases h with
    | form g stage =>
      obtain rfl := List.mem_singleton.1 hf
      rw [stage] at hstage
      cases hstage
    | repetition fs twice =>
      refine ⟨fun e he => ?_, ?_⟩
      · obtain ⟨g, hg, rfl⟩ := List.mem_map.1 he
        obtain ⟨name, hproblem, -⟩ := twice g hg
        exact congrArg (fun p => p.code.id) hproblem
      · obtain ⟨name, hproblem, hcount⟩ := twice f hf
        refine ⟨name, Finding.value?_duplicate hproblem number line, Nat.le_trans hcount ?_⟩
        rw [List.countP_map]
        refine List.countP_mono_left fun g _ hg => beq_iff_eq.2 ?_
        exact Finding.value?_duplicate (beq_iff_eq.1 hg) number line
    | content a stage =>
      rw [stage f ((a.found_sublist inputs).subset hf)] at hstage
      cases hstage
  definition := by
    rw [List.countP_map]
    refine Nat.le_trans (List.countP_mono_left fun f _ hf => ?_) hdefinition
    have hcode : f.problem.code = .invalidLabelDefinition := Code.id_inj.1 (beq_iff_eq.1 hf)
    obtain ⟨p, s⟩ := f
    cases p <;> cases hcode
    rfl

namespace Validator

/-- A line reports nothing twice. -/
theorem nodup_report (v : Validator) (inputs : List String) (number : Nat) (line : String) :
    (v.report inputs number line).Nodup := by
  have hsub := (v.analyze line).found_sublist inputs
  refine List.Nodup.map_on (fun f hf g hg h => ?_) ((v.nodup_analyze line).sublist hsub)
  exact (v.marks_analyze line (hsub.subset hf)).diagnostic_inj
    (v.marks_analyze line (hsub.subset hg)) h

/-- The diagnostics of a line are disciplined. -/
theorem disciplined_report (v : Validator) (inputs : List String) (number : Nat) (line : String) :
    Diagnostic.Disciplined (v.report inputs number line) := by
  have hsub := (v.analyze line).found_sublist inputs
  refine (v.staged_analyze line).disciplined ?_ number line
  -- a finding about a label definition is one of the whole line, and nothing is found twice
  have hnodup := (v.nodup_analyze line).sublist hsub
  refine Nat.le_trans (List.countP_mono_left fun f hf hproblem => ?_)
    (List.nodup_iff_count_le_one.1 hnodup (.wholeLine .invalidLabelDefinition))
  have hmarks := v.marks_analyze line (hsub.subset hf)
  obtain ⟨p, s⟩ := f
  obtain rfl : p = .invalidLabelDefinition := beq_iff_eq.1 hproblem
  exact beq_iff_eq.2 (congrArg (Finding.mk _) hmarks.2)

/-! ## Diagnostics of a text -/

section
variable {v : Validator} {inputs : List String} {number : Nat} {line : String}

theorem line_of_mem_report {d : Diagnostic} (hd : d ∈ v.report inputs number line) :
    d.line = number := by
  obtain ⟨f, -, rfl⟩ := List.mem_map.1 hd
  rfl

theorem filter_report (v : Validator) (inputs : List String) (number : Nat) (line : String) :
    (v.report inputs number line).filter (fun d => d.line == number) =
      v.report inputs number line :=
  List.filter_eq_self.2 fun _ hd => beq_iff_eq.2 (line_of_mem_report hd)

theorem filter_report_of_ne {other : Nat} (h : number ≠ other) :
    (v.report inputs number line).filter (fun d => d.line == other) = [] :=
  List.filter_eq_nil_iff.2 fun _ hd he => h (line_of_mem_report hd ▸ beq_iff_eq.1 he)

end

theorem zipIdx_ascending (lines : List String) (number : Nat) :
    (lines.zipIdx number).Pairwise fun a b => a.2 < b.2 := by
  induction lines generalizing number with
  | nil => exact List.Pairwise.nil
  | cons line lines ih =>
    rw [List.zipIdx_cons]
    exact List.pairwise_cons.2 ⟨fun e he => List.le_snd_of_mem_zipIdx he, ih (number + 1)⟩

/-- The diagnostics at a line of a text are those of that line. -/
theorem filter_reports (v : Validator) (inputs : List String) (number i : Nat)
    (lines : List String) :
    (((lines.zipIdx number).flatMap fun e => v.report inputs e.2 e.1).filter
      fun d => d.line == number + i) = (lines[i]?.map (v.report inputs (number + i))).getD [] := by
  induction lines generalizing number i with
  | nil => rfl
  | cons line lines ih =>
    rw [List.zipIdx_cons, List.flatMap_cons, List.filter_append]
    cases i with
    | zero =>
      have hrest : ((lines.zipIdx (number + 1)).flatMap fun e => v.report inputs e.2 e.1).filter
          (fun d => d.line == number) = [] := by
        rw [List.filter_flatMap, List.flatMap_eq_nil_iff]
        intro e he
        exact filter_report_of_ne (Nat.ne_of_gt (List.le_snd_of_mem_zipIdx he))
      rw [Nat.add_zero, filter_report, hrest, List.append_nil]
      rfl
    | succ i =>
      rw [filter_report_of_ne (by omega), List.nil_append, List.getElem?_cons_succ,
        Nat.add_comm i, ← Nat.add_assoc]
      exact ih (number + 1) i

/-- On a node each line of a text is reported by itself. -/
theorem exists_reports (v : Validator) (text : String) (inputs : List String) :
    ∃ o, v.validate text (.node inputs) = .ok o ∧ ∀ i line, (Text.lines text)[i]? = some line →
      (o.diagnostics.filter fun d => d.line == i) = v.report inputs i line := by
  refine ⟨_, v.validate_node text inputs, fun i line hline => ?_⟩
  have h := v.filter_reports inputs 0 i (Text.lines text)
  rw [Nat.zero_add, hline] at h
  exact h

end Validator

/-- A report on a node is in the order of the lines, it says nothing twice and all of it are errors.
The diagnostics of each line are disciplined. -/
theorem report_discipline (v : Validator) (text : String) (inputs : List String) :
    ∃ o, v.validate text (.node inputs) = .ok o ∧
      (o.diagnostics.map Diagnostic.line).Pairwise (· ≤ ·) ∧ o.diagnostics.Nodup ∧
        (∀ d ∈ o.diagnostics, d.severity = .error) ∧
          ∀ i, Diagnostic.Disciplined (o.diagnostics.filter fun d => d.line == i) := by
  refine ⟨_, v.validate_node text inputs, ?_, ?_, fun d hd => ?_, fun i => ?_⟩
  · refine List.pairwise_map.2 (List.pairwise_flatMap.2 ⟨fun e _ => ?_, ?_⟩)
    · refine List.pairwise_of_forall_mem_list fun d hd d' hd' => Nat.le_of_eq ?_
      rw [Validator.line_of_mem_report hd, Validator.line_of_mem_report hd']
    · refine (Validator.zipIdx_ascending _ 0).imp fun hlt d hd d' hd' => ?_
      rw [Validator.line_of_mem_report hd, Validator.line_of_mem_report hd']
      exact Nat.le_of_lt hlt
  · refine List.nodup_flatMap.2 ⟨fun e _ => v.nodup_report inputs e.2 e.1, ?_⟩
    refine (Validator.zipIdx_ascending _ 0).imp fun hlt d hd hd' => Nat.ne_of_lt hlt ?_
    rw [← Validator.line_of_mem_report hd, ← Validator.line_of_mem_report hd']
  · obtain ⟨e, -, hd⟩ := List.mem_flatMap.1 hd
    obtain ⟨f, -, rfl⟩ := List.mem_map.1 hd
    rfl
  · have hline := v.filter_reports inputs 0 i (Text.lines text)
    rw [Nat.zero_add] at hline
    rw [hline]
    cases (Text.lines text)[i]? with
    | none => exact ⟨nofun, nofun, Nat.zero_le 1⟩
    | some line => exact v.disciplined_report inputs i line

/-- A name that stands twice is reported twice, and the other one is not. A type that stands twice
in front of a dot is reported twice, and two outputs of a wrong form once. -/
theorem report_discipline_repeated : ∃ o,
    (Validator.standard (some ⟨[], nofun, .nil, nofun⟩)).validate
        "Forwarding(\x7bb,a,b\x7d)\nAssignment(\x7b\x7d;T.v;\x7bT.v.x,T.v.x\x7d)" (.node []) =
      .ok o ∧
      o.diagnostics.map (fun d => (d.line, d.id)) = [(0, "BHV2001"), (0, "BHV2001"),
        (1, "BHV2101"), (1, "BHV2101"), (1, "BHV2101"), (1, "BHV2103")] ∧
      Diagnostic.Disciplined (o.diagnostics.filter fun d => d.line == 1) := by
  obtain ⟨o, ho, -, -, -, hlines⟩ := report_discipline (.standard (some ⟨[], nofun, .nil, nofun⟩))
    "Forwarding(\x7bb,a,b\x7d)\nAssignment(\x7b\x7d;T.v;\x7bT.v.x,T.v.x\x7d)" []
  refine ⟨o, ho, ?_, hlines 1⟩
  rw [Validator.validate_node] at ho
  cases ho
  rfl

end LabelFlow
