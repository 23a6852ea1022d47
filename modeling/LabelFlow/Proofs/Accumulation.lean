import LabelFlow.Proofs.Occurrences

/-!
# What the check of a line gathers

The check of a statement goes along its parts and adds to a growing list of diagnostics. The state
of such a loop is told by the findings that came so far: it has the diagnostic of each, where it
came first (`NumberedLine.gathered`). A step of a loop lets one more finding come
(`pushUnique_gathered`), a whole loop all of its own, one after the other (`foldl_pushUnique`), and
passing over what is available or was seen before is to leave out what would not stay or not be
added (`reportUnavailable_eq`, `checkAccesses_gathered`). So the check of a statement comes to what
its analysis has (`Assignment.check_eq`, `Forwarding.check_eq`), and `Validator.visit_eq` says so of
a line.
-/

set_option autoImplicit false

namespace LabelFlow

open Text Layout

/-- Once the columns are filled in, a report is the diagnostic of its finding. -/
theorem Finding.fillColumns_report (f : Finding) (l : NumberedLine) :
    (l.report f).fillColumns l.text.length = f.diagnostic l.number l.text := by
  obtain ⟨p, s⟩ := f
  cases s <;> cases p <;> rfl

/-- Findings in place have different reports. -/
theorem Finding.Marks.report_inj {f g : Finding} {l : NumberedLine} (hf : f.Marks l.text.toList)
    (hg : g.Marks l.text.toList) (h : l.report f = l.report g) : f = g := by
  have hsame : f.diagnostic l.number l.text = g.diagnostic l.number l.text := by
    rw [← fillColumns_report, ← fillColumns_report, h]
  exact hf.diagnostic_inj hg hsame

/-! ## Lists that grow -/

namespace NumberedLine

variable {l : NumberedLine} {came fs : List Finding}

/-- What is gathered of findings that came one after the other: the report of each, kept where it
came first. -/
def gathered (l : NumberedLine) (came : List Finding) : List Diagnostic :=
  (came.map l.report).eraseDups

/-- One more finding comes. -/
theorem pushUnique_gathered (l : NumberedLine) (came : List Finding) (f : Finding) :
    pushUnique (l.gathered came) (l.report f) = l.gathered (came ++ [f]) := by
  unfold pushUnique gathered
  rw [List.map_append, List.map_singleton]
  by_cases h : l.report f ∈ came.map l.report
  · rw [if_pos (List.mem_eraseDups.2 h), eraseDups_append_of_mem h]
  · rw [if_neg (mt List.mem_eraseDups.1 h), eraseDups_append_of_not_mem h]

/-- Findings come one after the other. -/
theorem foldl_pushUnique (l : NumberedLine) (came fs : List Finding) :
    fs.foldl (fun out f => pushUnique out (l.report f)) (l.gathered came) =
      l.gathered (came ++ fs) := by
  induction fs generalizing came with
  | nil => rw [List.append_nil, List.foldl_nil]
  | cons f fs ih =>
    rw [List.foldl_cons, pushUnique_gathered, ih, List.append_assoc, List.singleton_append]

/-- Findings that came before add nothing. -/
theorem gathered_append_of_subset (h : fs ⊆ came) : l.gathered (came ++ fs) = l.gathered came := by
  rw [gathered, List.map_append, eraseDups_append_of_subset (List.map_subset _ h), gathered]

/-- Without a look at what is there, every report is kept. -/
theorem foldl_pushLast (l : NumberedLine) (out : List Diagnostic) (fs : List Finding) :
    fs.foldl (fun out f => pushLast out (l.report f)) out = out ++ fs.map l.report := by
  induction fs generalizing out with
  | nil => rw [List.foldl_nil, List.map_nil, List.append_nil]
  | cons f fs ih =>
    rw [List.foldl_cons, ih, pushLast, List.append_assoc, List.singleton_append, List.map_cons]

/-- To pass over the names that are available is to have the findings come that stay on a node with
these inputs, where every name counts as unknown. -/
theorem reportUnavailable_eq (push : List Diagnostic → Diagnostic → List Diagnostic)
    (available : List String) (region : List Token) (out : List Diagnostic) (names : List String) :
    l.reportUnavailable push available region out names =
      ((names.map fun name =>
        Finding.mk (.unknownInput name) (Token.firstPlaceOf region name)).filter
          (Finding.stands available)).foldl (fun out f => push out (l.report f)) out := by
  induction names generalizing out with
  | nil => rfl
  | cons name names ih =>
    rw [reportUnavailable, List.map_cons]
    cases havailable : available.contains name with
    | true =>
      have hfalls : Finding.stands available ⟨.unknownInput name, Token.firstPlaceOf region name⟩ =
          false := by
        simp only [Finding.stands, havailable, Bool.not_true]
      rw [if_pos rfl, ih, List.filter_cons_of_neg (by rw [hfalls]; exact Bool.false_ne_true)]
    | false =>
      have hstands : Finding.stands available ⟨.unknownInput name, Token.firstPlaceOf region name⟩ =
          true := by
        simp only [Finding.stands, havailable, Bool.not_false]
      rw [if_neg Bool.false_ne_true, ih, List.filter_cons_of_pos hstands, List.foldl_cons]

end NumberedLine

/-- The loop over names that keeps a list of their texts, where none is absent. -/
theorem Name.distinct_eq {names : List Name} (h : ∀ n ∈ names, n.isAbsent = false) :
    Name.distinct names = (names.map Name.text).eraseDups := by
  -- the list has the texts of the names so far, each once
  have hrun : ∀ came : List String, names.foldl (fun texts n =>
      if n.isAbsent || texts.contains n.text then texts else texts ++ [n.text]) came.eraseDups =
        (came ++ names.map Name.text).eraseDups := by
    induction names with
    | nil =>
      intro came
      rw [List.foldl_nil, List.map_nil, List.append_nil]
    | cons n names ih =>
      intro came
      obtain ⟨hn, hnames⟩ := List.forall_mem_cons.1 h
      have hstep : (if n.isAbsent || came.eraseDups.contains n.text then came.eraseDups
          else came.eraseDups ++ [n.text]) = (came ++ [n.text]).eraseDups := by
        rw [hn, Bool.false_or]
        by_cases hm : n.text ∈ came
        · rw [if_pos (by simpa using hm), eraseDups_append_of_mem hm]
        · rw [if_neg (by simpa using hm), eraseDups_append_of_not_mem hm]
      rw [List.foldl_cons, hstep, ih hnames, List.map_cons, List.append_assoc,
        List.singleton_append]
  exact hrun []

/-! ## The node is asked -/

/-- The reports of an analysis, whose columns are not filled in yet, for an owner who is asked if
the inputs are needed. -/
def Analysis.reports (a : Analysis) (owner : Owner) (q : Inquiry) (l : NumberedLine) :
    Except OwnerError (List Diagnostic × Inquiry) :=
  if a.needsInputs then do
    let (inputs, q) ← q.ask owner
    .ok ((a.standing inputs).map l.report, q)
  else .ok (a.findings.map l.report, q)

/-! ## Forwarding statements -/

theorem Forwarding.reportRepeated_eq (l : NumberedLine) (names : NameList) :
    reportRepeated l (Token.inside l.tokens names.span) names.repeated =
      (duplicates l.tokens names).map l.report := by
  rw [reportRepeated, duplicates, List.map_flatMap]
  simp only [List.map_map]
  rfl

/-- The check of a Forwarding statement reports its analysis. -/
theorem Forwarding.check_eq (f : Forwarding) (l : NumberedLine) (owner : Owner) (q : Inquiry) :
    f.check l owner q = (f.analyze l.tokens).reports owner q l := by
  simp only [check, analyze]
  by_cases hall : f.inputs.names.all Name.isAbsent = true
  · rw [if_pos hall, if_pos hall]
    rfl
  rw [if_neg hall, if_neg hall]
  by_cases hany : f.inputs.names.any Name.isAbsent = true
  · rw [if_pos hany, if_pos hany]
    rfl
  rw [if_neg hany, if_neg hany]
  have hdistinct : Name.distinct f.inputs.names = f.inputs.distinct :=
    Name.distinct_eq (by simpa using hany)
  have hrepeated : (Name.distinct f.inputs.names).filter
      (fun name => 1 < (f.inputs.names.map Name.text).count name) = f.inputs.repeated := by
    rw [hdistinct, NameList.repeated]
  rw [hrepeated, reportRepeated_eq, hdistinct]
  by_cases hnone : duplicates l.tokens f.inputs = []
  · rw [if_neg (by simpa using hnone), if_neg (by simpa using hnone)]
    simp only [NumberedLine.reportUnavailable_eq, NumberedLine.foldl_pushLast, List.nil_append]
    rfl
  · rw [if_pos (by simpa using hnone), if_pos hnone]
    rfl

/-! ## Assignment statements -/

namespace Assignment

/-- The findings of a label, at every place of its unknown type or value in a region. -/
def labelFindings (catalog : Option Catalog) (region : List Token) (labelType value : String) :
    List Finding :=
  match catalog with
  | none => []
  | some c =>
    match c.find? labelType with
    | none =>
      (Token.placesOf region labelType .beforeDot).map fun s =>
        ⟨.unknownLabelType labelType, some s⟩
    | some t =>
      if value = "" ∨ t.hasValue value then []
      else
        (Token.placesOf region value .afterDot).map fun s =>
          ⟨.unknownLabelValue labelType value, some s⟩

/-- One finding for each different input that is not available, at the first of its name. -/
def inputFindings (available : List String) (a : Assignment) : List Finding :=
  ((a.inputs.map Name.text).eraseDups.filter fun name => !available.contains name).map fun name =>
    ⟨.unknownInput name, (Name.withText a.inputs name).head?.map Name.span⟩

/-- The findings of an output label; further segments are a fault of the whole line. -/
def outputFindings (catalog : Option Catalog) (region : List Token) (o : OutputLabel) :
    List Finding :=
  labelFindings catalog region o.labelType.text o.valueText ++
    if o.extra = [] then [] else [.wholeLine .invalidLabelDefinition]

/-- All findings in the order of the statement, with repeats. -/
def collected (catalog : Option Catalog) (available : List String) (tokens : List Token)
    (accesses : List Access) (a : Assignment) : List Finding :=
  let region := Token.inside tokens a.labelSpan
  accesses.flatMap (fun l => labelFindings catalog region l.labelType.text l.value.text) ++
    a.inputFindings available ++ a.outputs.flatMap (outputFindings catalog region)

section
variable {l : NumberedLine} {catalog : Catalog} {region : List Token}

theorem reportPlaces_gathered (p : Problem) (name : String) (surrounding : Surrounding)
    (came : List Finding) : reportPlaces l region p name surrounding (l.gathered came) =
      l.gathered (came ++ (Token.placesOf region name surrounding).map fun s => ⟨p, some s⟩) := by
  rw [← NumberedLine.foldl_pushUnique, List.foldl_map]
  rfl

theorem checkLabel_gathered (labelType value : String) (came : List Finding) :
    checkLabel l catalog region labelType value (l.gathered came) =
      l.gathered (came ++ labelFindings (some catalog) region labelType value) := by
  simp only [checkLabel, labelFindings]
  cases catalog.find? labelType with
  | none => exact reportPlaces_gathered _ _ _ came
  | some t =>
    by_cases hv : value = "" ∨ t.hasValue value = true
    · simp only [if_pos hv, List.append_nil]
    · simp only [if_neg hv]
      exact reportPlaces_gathered _ _ _ came

/-- The loop over the labels of the term. What comes of a label that was seen has come already, so
it makes no difference to pass over it. -/
theorem checkAccesses_gathered {seen : List (String × String)} {came : List Finding}
    (hseen : ∀ e ∈ seen, labelFindings (some catalog) region e.1 e.2 ⊆ came) (as : List Access) :
    checkAccesses l catalog region seen (l.gathered came) as = l.gathered (came ++
      as.flatMap fun a => labelFindings (some catalog) region a.labelType.text a.value.text) := by
  induction as generalizing seen came with
  | nil => rw [checkAccesses, List.flatMap_nil, List.append_nil]
  | cons a as ih =>
    rw [checkAccesses, List.flatMap_cons, ← List.append_assoc]
    by_cases hlabel : seen.contains (a.labelType.text, a.value.text) = true
    · have hcame := hseen _ (List.contains_iff_mem.1 hlabel)
      rw [if_pos hlabel, ← NumberedLine.gathered_append_of_subset hcame, ih]
      exact fun e he => List.subset_append_of_subset_left _ (hseen e he)
    · rw [if_neg hlabel, checkLabel_gathered, ih]
      intro e he
      rcases List.mem_append.1 he with he | he
      · exact List.subset_append_of_subset_left _ (hseen e he)
      · rw [List.mem_singleton.1 he]
        exact List.subset_append_right _ _

/-- The labels of the term. -/
theorem checkTerm_eq (catalog : Option Catalog) (as : List Access) :
    checkTerm l catalog region as = l.gathered
      (as.flatMap fun a => labelFindings catalog region a.labelType.text a.value.text) := by
  cases catalog with
  | none =>
    have hnone : (as.flatMap fun a =>
        labelFindings none region a.labelType.text a.value.text) = [] :=
      List.flatMap_eq_nil_iff.2 fun _ _ => rfl
    rw [hnone]
    rfl
  | some catalog =>
    have hseen : ∀ e ∈ ([] : List (String × String)),
        labelFindings (some catalog) region e.1 e.2 ⊆ [] := nofun
    exact checkAccesses_gathered (l := l) hseen as

theorem checkOutput_gathered (catalog : Option Catalog) (came : List Finding) (o : OutputLabel) :
    checkOutput l catalog region (l.gathered came) o =
      l.gathered (came ++ outputFindings catalog region o) := by
  have hlabel : checkOutput l catalog region (l.gathered came) o =
      if o.extra = [] then
        l.gathered (came ++ labelFindings catalog region o.labelType.text o.valueText)
      else
        pushUnique (l.gathered (came ++ labelFindings catalog region o.labelType.text o.valueText))
          (l.report (.wholeLine .invalidLabelDefinition)) := by
    unfold checkOutput
    simp only [List.isEmpty_iff]
    cases catalog with
    | none => simp only [labelFindings, List.append_nil]
    | some catalog => simp only [checkLabel_gathered]
  rw [hlabel, outputFindings, ← List.append_assoc]
  by_cases hextra : o.extra = []
  · rw [if_pos hextra, if_pos hextra, List.append_nil]
  · rw [if_neg hextra, if_neg hextra, NumberedLine.pushUnique_gathered]

/-- The loop over the outputs. -/
theorem foldl_checkOutput (catalog : Option Catalog) (came : List Finding)
    (os : List OutputLabel) : os.foldl (checkOutput l catalog region) (l.gathered came) =
      l.gathered (came ++ os.flatMap (outputFindings catalog region)) := by
  induction os generalizing came with
  | nil => rw [List.foldl_nil, List.flatMap_nil, List.append_nil]
  | cons o os ih =>
    rw [List.foldl_cons, checkOutput_gathered, ih, List.flatMap_cons, List.append_assoc]

end

theorem flatMap_labelProblems (catalog : Option Catalog) (tokens : List Token) (a : Assignment)
    (labelType value : String) :
    (labelProblems catalog labelType value).flatMap (a.findings tokens) =
      labelFindings catalog (Token.inside tokens a.labelSpan) labelType value := by
  cases catalog with
  | none => rfl
  | some c =>
    rw [labelProblems, Option.bind_some, labelProblem?, labelFindings]
    cases c.find? labelType with
    | none => exact List.append_nil _
    | some t =>
      by_cases hv : value = "" ∨ t.hasValue value = true
      · simp only [if_pos hv]
        rfl
      · simp only [if_neg hv]
        exact List.append_nil _

theorem flatMap_outputProblems (catalog : Option Catalog) (tokens : List Token) (a : Assignment)
    (o : OutputLabel) : (outputProblems catalog o).flatMap (a.findings tokens) =
      outputFindings catalog (Token.inside tokens a.labelSpan) o := by
  rw [outputProblems, List.flatMap_append, flatMap_labelProblems, outputFindings]
  cases o.extra <;> rfl

theorem stands_of_mem_labelFindings {catalog : Option Catalog} {region : List Token}
    {labelType value : String} (available : List String) {f : Finding}
    (hf : f ∈ labelFindings catalog region labelType value) : f.stands available = true := by
  unfold labelFindings at hf
  split at hf
  · cases hf
  split at hf
  · obtain ⟨s, -, rfl⟩ := List.mem_map.1 hf
    rfl
  split at hf
  · cases hf
  · obtain ⟨s, -, rfl⟩ := List.mem_map.1 hf
    rfl

theorem stands_of_mem_outputFindings {catalog : Option Catalog} {region : List Token}
    {o : OutputLabel} (available : List String) {f : Finding}
    (hf : f ∈ outputFindings catalog region o) : f.stands available = true := by
  rcases List.mem_append.1 hf with hf | hf
  · exact stands_of_mem_labelFindings available hf
  · split at hf
    · cases hf
    · rw [List.mem_singleton.1 hf]
      rfl

/-- The names that are not available come where the first of each name stands. -/
theorem filter_unknownInputs {region : List Token} {a : Assignment}
    (hfinds : ∀ name, Token.Finds region name .identifier a.inputs) (available : List String) :
    ((a.inputs.map Name.text).eraseDups.map fun name =>
      Finding.mk (.unknownInput name) (Token.firstPlaceOf region name)).filter
        (Finding.stands available) = a.inputFindings available := by
  rw [List.filter_map, inputFindings]
  refine List.map_congr_left fun name _ => ?_
  rw [(hfinds name).firstPlaceOf]

/-- The inputs are found by their names, each at the first of its name. -/
theorem eraseDups_unknownInputs {tokens : List Token} {a : Assignment}
    (hfinds : ∀ name, Token.Finds (Token.inside tokens a.inputSpan) name .identifier a.inputs)
    (available : List String) :
    (((a.inputs.map fun n => Problem.unknownInput n.text).flatMap (a.findings tokens)).filter
      (Finding.stands available)).eraseDups = a.inputFindings available := by
  let unknown := fun name => Finding.mk (.unknownInput name)
    (Token.firstPlaceOf (Token.inside tokens a.inputSpan) name)
  have hfindings : (a.inputs.map fun n => Problem.unknownInput n.text).flatMap
      (a.findings tokens) = (a.inputs.map Name.text).map unknown := by
    rw [List.flatMap_map, List.map_map, ← List.flatMap_pure_eq_map]
    rfl
  rw [hfindings, ← filter_unknownInputs hfinds, eraseDups_filter, eraseDups_map]
  exact fun name _ other _ h => Problem.unknownInput.inj (congrArg Finding.problem h)

end Assignment

namespace Layout.Assignment

variable {minLength : Nat} {l : Assignment} {line : String}

/-- What is found in the labels and inputs of a statement is what is collected, once each. -/
theorem standing_problems (hl : l.Valid minLength) (hline : line.toList = l.chars)
    (catalog : Option Catalog) (available : List String) (accesses : List Access) :
    ((l.value.problems catalog accesses).eraseDups.flatMap
      (l.value.findings (Token.ofLine line))).filter (Finding.stands available) =
        (l.value.collected catalog available (Token.ofLine line) accesses).eraseDups := by
  rw [← eraseDups_flatMap, ← eraseDups_filter, LabelFlow.Assignment.problems, List.flatMap_append,
    List.flatMap_append, List.filter_append, List.filter_append, ← eraseDups_middle,
    LabelFlow.Assignment.eraseDups_unknownInputs (finds_inputs hl hline), List.flatMap_assoc,
    List.flatMap_assoc]
  · simp only [LabelFlow.Assignment.flatMap_labelProblems,
      LabelFlow.Assignment.flatMap_outputProblems]
    rw [List.filter_eq_self.2, List.filter_eq_self.2]
    · rfl
    · intro f hf
      obtain ⟨o, -, hf⟩ := List.mem_flatMap.1 hf
      exact LabelFlow.Assignment.stands_of_mem_outputFindings available hf
    · intro f hf
      obtain ⟨a, -, hf⟩ := List.mem_flatMap.1 hf
      exact LabelFlow.Assignment.stands_of_mem_labelFindings available hf
  · exact fun p _ => l.value.nodup_findings line p
  · intro p q f hp hq
    rw [← LabelFlow.Assignment.problem_of_mem_findings hp,
      LabelFlow.Assignment.problem_of_mem_findings hq]

/-- What is collected is in place. -/
theorem marks_collected (hl : l.Valid minLength) (hline : line.toList = l.chars)
    {catalog : Option Catalog} {available : List String} {accesses : List Access}
    (paren : LabelFlow.Assignment.parenFinding 0 (Token.ofLine line) = none)
    (term : ¬ l.value.term.text.toList.all isBlank = true)
    (symbols : Access.ofTokens (Token.inside (Token.ofLine line) l.value.term.span) = .ok accesses)
    {f : Finding} (hf : f ∈ l.value.collected catalog available (Token.ofLine line) accesses) :
    f.Marks line.toList := by
  rw [← List.mem_eraseDups, ← standing_problems hl hline] at hf
  have hmem : f ∈ (l.value.analyze catalog (Token.ofLine line)).findings := by
    rw [LabelFlow.Assignment.analyze, paren]
    simp only [if_neg term, symbols]
    exact (List.mem_filter.1 hf).1
  exact marks_analyze hl hline hmem

/-- The inputs have texts, so the loop over their names has each of them. -/
theorem distinct_inputs (hl : l.Valid minLength) :
    Name.distinct l.value.inputs = (l.value.inputs.map Name.text).eraseDups := by
  refine Name.distinct_eq fun n hn => ?_
  obtain ⟨w, _, _, hw, -, -, rfl⟩ := exists_of_mem_inputs hl hn
  rw [Bool.eq_false_iff, ne_eq, Name.isAbsent_spelled]
  exact hw.1.ne_nil

end Layout.Assignment

namespace Assignment

variable {minLength : Nat} {a : Assignment} {l : NumberedLine} {accesses : List Access}

/-- The whole run: where the parentheses and the term are fine, the node is asked and all that is
collected is gathered. -/
theorem check_labels (h : parse? minLength l.text = some a)
    (paren : parenFinding 0 l.tokens = none) (term : ¬ a.term.text.toList.all isBlank = true)
    (symbols : Access.ofTokens (Token.inside l.tokens a.term.span) = .ok accesses)
    (catalog : Option Catalog) (owner : Owner) (q : Inquiry) :
    a.check l catalog owner q = q.ask owner >>= fun r =>
      .ok (l.gathered (a.collected catalog r.1 l.tokens accesses), r.2) := by
  obtain ⟨layout, hl, hline, rfl⟩ := parse?_eq_some_iff.1 h
  have hfinds : ∀ name, Token.Finds (Token.inside l.tokens layout.value.inputSpan) name .identifier
      layout.value.inputs := Layout.Assignment.finds_inputs hl hline
  rw [check, paren]
  simp only [if_neg term, symbols, checkTerm_eq, NumberedLine.reportUnavailable_eq,
    Layout.Assignment.distinct_inputs hl, filter_unknownInputs hfinds,
    NumberedLine.foldl_pushUnique, foldl_checkOutput]
  rfl

/-- The check of an Assignment statement reports its analysis. -/
theorem check_eq (h : parse? minLength l.text = some a) (catalog : Option Catalog) (owner : Owner)
    (q : Inquiry) : a.check l catalog owner q = (a.analyze catalog l.tokens).reports owner q l := by
  have hcheck := a.checked_analyze catalog l.tokens
  generalize hanalysis : a.analyze catalog l.tokens = analysis at hcheck
  cases hcheck with
  | unbalanced f paren =>
    rw [check, paren]
    rfl
  | blank paren term =>
    rw [check, paren]
    simp only [if_pos (List.all_eq_true.2 term)]
    rfl
  | fault paren term error symbols =>
    rw [check, paren]
    simp only [if_neg (mt List.all_eq_true.1 term), symbols]
    rfl
  | labels paren term accesses symbols =>
    rw [check_labels h paren (mt List.all_eq_true.1 term) symbols]
    obtain ⟨layout, hl, hline, rfl⟩ := parse?_eq_some_iff.1 h
    have hgathered : ∀ available,
        l.gathered (layout.value.collected catalog available l.tokens accesses) =
          ((((layout.value.problems catalog accesses).eraseDups.flatMap
            (layout.value.findings l.tokens)).filter (Finding.stands available)).map l.report) := by
      intro available
      have hmarks : ∀ {f : Finding},
          f ∈ layout.value.collected catalog available l.tokens accesses → f.Marks l.text.toList :=
        Layout.Assignment.marks_collected hl hline paren (mt List.all_eq_true.1 term) symbols
      rw [NumberedLine.gathered,
        eraseDups_map fun f hf g hg => (hmarks hf).report_inj (hmarks hg), NumberedLine.tokens,
        Layout.Assignment.standing_problems hl hline]
    simp only [hgathered]
    rfl

end Assignment

/-! ## Lines -/

namespace Validator

/-- The check of a line reports its analysis. -/
theorem check_eq (v : Validator) (owner : Owner) (q : Inquiry) (l : NumberedLine) :
    v.check owner q l = (v.analyze l.text).reports owner q l := by
  have hcheck := v.checked_analyze l.text
  generalize v.analyze l.text = analysis at hcheck
  cases hcheck with
  | blank form | comment form | unknown form =>
    rw [check, form]
    rfl
  | noForwarding form parts | noAssignment form parts =>
    rw [check, form]
    simp only [parts]
    rfl
  | forwarding form f parts =>
    rw [check, form]
    simp only [parts]
    exact f.check_eq l owner q
  | assignment form a parts =>
    rw [check, form]
    simp only [parts]
    exact Assignment.check_eq parts v.catalog owner q

/-- To visit a line gives the outcome of its analysis: in the lists that the checks let grow, with
the inputs looked up on the way and columns filled in at the end, are the diagnostics of the
findings that stay. -/
theorem visit_eq (v : Validator) (owner : Owner) (q : Inquiry) (number : Nat) (line : String) :
    v.visit owner q number line = (v.analyze line).outcome owner q number line := by
  have hfill : ∀ fs : List Finding, (fs.map (NumberedLine.report ⟨number, line⟩)).map
      (fun d => d.fillColumns line.length) = fs.map fun f => f.diagnostic number line := by
    intro fs
    rw [List.map_map]
    exact List.map_congr_left fun f _ => f.fillColumns_report ⟨number, line⟩
  rw [visit, check_eq, Analysis.reports, Analysis.outcome]
  split
  · cases q.ask owner with
    | error e => rfl
    | ok r => exact congrArg (fun ds => Except.ok (ds, r.2)) (hfill _)
  · exact congrArg (fun ds => Except.ok (ds, q)) (hfill _)

end Validator

end LabelFlow
