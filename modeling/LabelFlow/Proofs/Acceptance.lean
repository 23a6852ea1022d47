import Mathlib.Data.List.Nodup
import LabelFlow.Proofs.Findings
import LabelFlow.Proofs.Run

/-!
# Which texts are accepted

A text has no diagnostics exactly if each of its lines is blank, a comment or a statement that
passes every check: `validate_eq_nil_iff`. What a statement has to satisfy is said of its layout
(`Layout.Passes`, `Layout.Assignment.Passes`).
-/

set_option autoImplicit false

namespace LabelFlow

open Text Layout

/-- The catalog has the label type and, if a value is given, lists it under the type. -/
def Catalog.Defines (c : Catalog) (labelType value : String) : Prop :=
  ∃ t ∈ c.types, t.name = labelType ∧ (value = "" ∨ value ∈ t.texts)

/-- The names of a Forwarding statement are there, distinct and available. -/
structure Layout.Passes (minLength : Nat) (available : List String) (first : Item)
    (more : List Item) : Prop where
  names : ∀ p ∈ first :: more, p.Valid (InputName minLength)
  distinct : ((first :: more).map Padded.core).Nodup
  known : ∀ p ∈ first :: more, .ofList p.core ∈ available

/-- The inputs of an Assignment statement are available, the parentheses of its line nest, its term
is made of symbols, and its labels have no third part and are defined. -/
structure Layout.Assignment.Passes (minLength : Nat) (available : List String)
    (catalog : Option Catalog) (l : Layout.Assignment) : Prop where
  valid : l.Valid minLength
  known : ∀ p ∈ l.inputs.padded, .ofList p.core ∈ available
  nested : WellNested l.chars
  term : ¬ Blank l.term
  outputs : ∀ p ∈ l.outputs.padded, p.core.extra = []
  labels : ∃ labels, Symbols l.term labels ∧ ∀ c ∈ catalog,
    (∀ e ∈ labels, c.Defines (.ofList e.1) (.ofList e.2)) ∧
      ∀ p ∈ l.outputs.padded, c.Defines (.ofList p.core.labelType) (.ofList p.core.value)

/-- A line that is blank, a comment or a statement that passes every check. -/
inductive Validator.Accepts (v : Validator) (available : List String) (line : String) : Prop
  | blank (h : line = "")
  | hash (rest : List Char) (h : line.toList = '#' :: rest)
  | slashes (rest : List Char) (h : line.toList = '/' :: '/' :: rest)
  | forwarding (first : Item) (more : List Item) (h : line.toList = Layout.forwarding first more)
      (passes : Passes v.config.minNameLength available first more)
  | assignment (l : Layout.Assignment) (h : line.toList = l.chars)
      (passes : l.Passes v.config.minNameLength available v.catalog)

/-! ## Labels -/

namespace Catalog

/-- Looking a name up finds the type that has it. -/
theorem find?_eq_some_iff {c : Catalog} {name : String} {t : LabelType} :
    c.find? name = some t ↔ t ∈ c.types ∧ t.name = name := by
  refine ⟨fun h => ?_, fun h => ?_⟩
  · exact ⟨List.mem_of_find?_eq_some h, by simpa using List.find?_some h⟩
  · obtain ⟨ht, rfl⟩ := h
    cases hfind : c.find? t.name with
    | none =>
      have hno := List.find?_eq_none.1 hfind t ht
      simp at hno
    | some u =>
      have hu : u.name = t.name := by simpa using List.find?_some hfind
      have hmem := List.mem_of_find?_eq_some hfind
      rw [List.inj_on_of_nodup_map c.wellFormed.distinctNames hmem ht hu]

end Catalog

namespace Assignment

theorem labelProblem?_eq_none_iff {c : Catalog} {labelType value : String} :
    labelProblem? c labelType value = none ↔ c.Defines labelType value := by
  unfold labelProblem? Catalog.Defines
  cases hfind : c.find? labelType with
  | none =>
    simp only [reduceCtorEq, false_iff]
    intro ⟨t, ht, hname, _⟩
    rw [Catalog.find?_eq_some_iff.2 ⟨ht, hname⟩] at hfind
    cases hfind
  | some t =>
    obtain ⟨ht, hname⟩ := Catalog.find?_eq_some_iff.1 hfind
    simp only [LabelType.hasValue, List.contains_iff_mem]
    refine ⟨fun h => ⟨t, ht, hname, ?_⟩, fun h => if_pos ?_⟩
    · exact Decidable.byContradiction fun hno => by simp [hno] at h
    · obtain ⟨u, hu, hname', h⟩ := h
      have hfind' := Catalog.find?_eq_some_iff.2 ⟨hu, hname'⟩
      obtain rfl := Option.some.inj (hfind.symm.trans hfind')
      exact h

theorem labelProblems_eq_nil_iff {catalog : Option Catalog} {labelType value : String} :
    labelProblems catalog labelType value = [] ↔ ∀ c ∈ catalog, c.Defines labelType value := by
  unfold labelProblems
  cases catalog with
  | none => simp
  | some c => simp [labelProblem?_eq_none_iff]

/-- No problem of a statement stays on a node exactly if its labels are defined, its inputs are
available and no output has a third part. -/
theorem problems_known_iff {catalog : Option Catalog} {accesses : List Access} {a : Assignment}
    {available : List String} : (∀ p ∈ a.problems catalog accesses, ∃ name ∈ available,
      p = .unknownInput name) ↔
    (∀ l ∈ accesses, ∀ c ∈ catalog, c.Defines l.labelType.text l.value.text) ∧
      (∀ n ∈ a.inputs, n.text ∈ available) ∧
        ∀ o ∈ a.outputs, (∀ c ∈ catalog, c.Defines o.labelType.text o.valueText) ∧
          o.extra.isEmpty = true := by
  have hlabel : ∀ {labelType value : String}, (∀ p ∈ labelProblems catalog labelType value,
      ∃ name ∈ available, p = .unknownInput name) ↔ ∀ c ∈ catalog, c.Defines labelType value := by
    intro labelType value
    rw [← labelProblems_eq_nil_iff, List.eq_nil_iff_forall_not_mem]
    refine forall_congr' fun p => ⟨fun h hp => ?_, fun h hp => absurd hp h⟩
    obtain ⟨name, -, rfl⟩ := h hp
    rcases mem_labelProblems hp with hp | ⟨-, hp⟩ <;> cases hp
  have hextra : ∀ {o : OutputLabel}, (∀ p ∈ if o.extra.isEmpty = true then []
      else [Problem.invalidLabelDefinition], ∃ name ∈ available, p = .unknownInput name) ↔
        o.extra.isEmpty = true := by
    intro o
    by_cases h : o.extra.isEmpty = true <;> simp [h]
  have hinput : ∀ {n : Name}, (∃ name ∈ available,
      Problem.unknownInput n.text = .unknownInput name) ↔ n.text ∈ available := by
    intro n
    simp
  simp only [problems, outputProblems, List.forall_mem_append, List.forall_mem_flatMap,
    List.forall_mem_map, hlabel, hextra, hinput, and_assoc]

end Assignment

/-! ## Forwarding -/

/-- A finding that hides the rest is left over, whatever the inputs. -/
theorem Analysis.found_stopAt_ne_nil (f : Finding) (available : List String) :
    (stopAt [f]).found available ≠ [] := List.cons_ne_nil f []

/-- Only an input that turns out to be available does not stay. -/
theorem Finding.stands_eq_false_iff {available : List String} {f : Finding} :
    f.stands available = false ↔ ∃ name ∈ available, f.problem = .unknownInput name := by
  obtain ⟨p, s⟩ := f
  cases p <;> simp [stands]

namespace Layout

variable {minLength : Nat} {available : List String} {first : Item} {more : List Item}
  {line : String}

theorem nodup_names {offset : Nat} : ((nameList offset first more).names.map Name.text).Nodup ↔
    ((first :: more).map Padded.core).Nodup := by
  have h : (first :: more).map (fun p => String.ofList p.core) =
      ((first :: more).map Padded.core).map String.ofList := by
    rw [List.map_map]
    rfl
  rw [NameList.text_nameList, h, List.Nodup, List.pairwise_map]
  simp only [ne_eq, String.ofList_inj]
  rfl

/-- Nothing is left to report of a Forwarding statement exactly if it passes. -/
theorem found_forwarding (h : ∀ p ∈ first :: more, p.Valid (OptionalName minLength))
    (hline : line.toList = forwarding first more) :
    (Forwarding.analyze (Token.ofLine line) ⟨nameList 12 first more⟩).found available = [] ↔
      Passes minLength available first more := by
  have hpresent : Passes minLength available first more →
      ¬ (nameList 12 first more).names.any Name.isAbsent = true :=
    fun hpass => ((NameList.inputNames_iff 12).1 hpass.names).2
  have hcheck := Forwarding.checked_analyze (Token.ofLine line) ⟨nameList 12 first more⟩
  generalize Forwarding.analyze (Token.ofLine line) ⟨nameList 12 first more⟩ = analysis at hcheck
  cases hcheck with
  | unnamed all =>
    exact ⟨fun hnil => absurd hnil (Analysis.found_stopAt_ne_nil _ _),
      fun hpass => absurd (NameList.any_of_all all) (hpresent hpass)⟩
  | missing all any =>
    exact ⟨fun hnil => absurd hnil (Analysis.found_stopAt_ne_nil _ _),
      fun hpass => absurd any (hpresent hpass)⟩
  | repeated any twice =>
    have hdup := duplicates_eq_nil_iff ((NameList.inputNames_iff 12).2 ⟨h, any⟩) hline
    rw [nodup_names] at hdup
    exact ⟨fun hnil => absurd hnil twice, fun hpass => absurd (hdup.2 hpass.distinct) twice⟩
  | names any once =>
    have hnames := (NameList.inputNames_iff 12).2 ⟨h, any⟩
    have hdistinct := nodup_names.1 ((duplicates_eq_nil_iff hnames hline).1 once)
    have htexts := NameList.text_nameList 12 first more
    simp only [Analysis.found, if_true, Analysis.standing, List.filter_eq_nil_iff,
      List.forall_mem_map, Bool.not_eq_true, Finding.stands_eq_false_iff,
      Problem.unknownInput.injEq, exists_eq_right']
    refine ⟨fun hknown => ⟨hnames, hdistinct, fun p hp => ?_⟩, fun hpass name hname => ?_⟩
    · have hmem : String.ofList p.core ∈ (nameList 12 first more).names.map Name.text := by
        rw [htexts]
        exact List.mem_map_of_mem (f := fun p : Item => String.ofList p.core) hp
      exact hknown _ (List.mem_eraseDups.2 hmem)
    · rw [NameList.distinct, List.mem_eraseDups, htexts] at hname
      obtain ⟨p, hp, rfl⟩ := List.mem_map.1 hname
      exact hpass.known p hp

/-! ## Assignment -/

namespace Assignment

variable {l : Assignment} {accesses : List Access} {catalog : Option Catalog}

theorem valueText_label (offset : Nat) (p : Path) :
    (p.label offset).valueText = .ofList p.value := by
  rw [OutputLabel.valueText, Path.label]
  by_cases h : p.value = []
  · rw [h]
    rfl
  · simp only [if_neg h]
    rfl

/-- What holds of the texts of all output labels is said of the paths. -/
theorem forall_outputs_iff {P : String → String → Bool → Prop} :
    (∀ o ∈ l.value.outputs, P o.labelType.text o.valueText o.extra.isEmpty) ↔
      ∀ p ∈ l.outputs.padded, P (.ofList p.core.labelType) (.ofList p.core.value)
        p.core.extra.isEmpty := by
  have htexts : l.value.outputs.map (fun o => (o.labelType.text, o.valueText, o.extra.isEmpty)) =
      l.outputs.padded.map fun p =>
        (String.ofList p.core.labelType, String.ofList p.core.value, p.core.extra.isEmpty) := by
    refine Listing.map_values (g := fun p : Path =>
      (String.ofList p.labelType, String.ofList p.value, p.extra.isEmpty)) (fun offset p => ?_) _ _
    have hextra : (p.label offset).extra.isEmpty = p.extra.isEmpty := by
      cases hp : p.extra <;> simp [Path.label, Path.names, hp]
    rw [valueText_label, hextra]
    rfl
  have hleft := List.forall_mem_map (P := fun e : String × String × Bool => P e.1 e.2.1 e.2.2)
    (f := fun o : OutputLabel => (o.labelType.text, o.valueText, o.extra.isEmpty))
    (l := l.value.outputs)
  rw [htexts, List.forall_mem_map] at hleft
  exact hleft.symm

/-- No finding of the problems stays exactly if all problems are inputs that are available. -/
theorem found_problems {minLength : Nat} (hl : l.Valid minLength) (hline : line.toList = l.chars)
    (hunits : Symbol.Units (Token.ofText l.termStart l.term) accesses) :
    (((l.value.problems catalog accesses).eraseDups.flatMap
        (l.value.findings (Token.ofLine line))).filter (Finding.stands available) = []) ↔
      ∀ p ∈ l.value.problems catalog accesses, ∃ name ∈ available, p = .unknownInput name := by
  simp only [List.filter_eq_nil_iff, List.forall_mem_flatMap, List.mem_eraseDups, Bool.not_eq_true,
    Finding.stands_eq_false_iff]
  refine forall₂_congr fun p hp => ?_
  obtain ⟨⟨f, hf⟩, hspec⟩ := findings_spec hl hline hunits hp
  refine ⟨fun h => ?_, fun h g hg => ?_⟩
  · rw [← (hspec f hf).1]
    exact h f hf
  · rw [(hspec g hg).1]
    exact h

/-- The labels of a term that is made of symbols are those of its accesses. -/
theorem symbols_iff {labels : List (List Char × List Char)}
    (hunits : Symbol.Units (Token.ofText l.termStart l.term) accesses) :
    Symbols l.term labels ↔ labels = accesses.map Access.texts := by
  refine ⟨fun h => ?_, fun h => h ▸ Symbols.of_units hunits rfl⟩
  obtain ⟨as, has, rfl⟩ := h.exists_units l.termStart
  have h1 := Access.ofTokens_eq_ok_iff.2 has
  rw [Access.ofTokens_eq_ok_iff.2 hunits] at h1
  rw [Except.ok.inj h1]

/-- All problems of a statement are inputs that are available exactly if it passes, parentheses and
term aside. -/
theorem problems_known_iff_passes {minLength : Nat} (hl : l.Valid minLength)
    (nested : WellNested l.chars) (term : ¬ Blank l.term)
    (hunits : Symbol.Units (Token.ofText l.termStart l.term) accesses) :
    (∀ p ∈ l.value.problems catalog accesses, ∃ name ∈ available, p = .unknownInput name) ↔
      l.Passes minLength available catalog := by
  have hinputs : (∀ n ∈ l.value.inputs, n.text ∈ available) ↔
      ∀ p ∈ l.inputs.padded, .ofList p.core ∈ available := by
    rw [← List.forall_mem_map (P := (· ∈ available)) (f := Name.text), text_inputs,
      List.forall_mem_map]
  have houtputs := forall_outputs_iff (l := l) (P := fun labelType value short =>
    (∀ c ∈ catalog, c.Defines labelType value) ∧ short = true)
  rw [LabelFlow.Assignment.problems_known_iff, hinputs, houtputs]
  refine ⟨fun h => ?_, fun hpass => ⟨?_, hpass.known, fun p hp => ⟨?_, ?_⟩⟩⟩
  · obtain ⟨haccesses, hknown, hpaths⟩ := h
    refine ⟨hl, hknown, nested, term, fun p hp => List.isEmpty_iff.1 (hpaths p hp).2,
      accesses.map Access.texts, (symbols_iff hunits).2 rfl, fun c hc => ⟨?_, ?_⟩⟩
    · rw [List.forall_mem_map]
      intro a ha
      simpa [Access.texts] using haccesses a ha c hc
    · exact fun p hp => (hpaths p hp).1 c hc
  · obtain ⟨labels, hsymbols, hdefined⟩ := hpass.labels
    rw [(symbols_iff hunits).1 hsymbols] at hdefined
    intro a ha c hc
    simpa [Access.texts] using (hdefined c hc).1 _ (List.mem_map_of_mem ha)
  · obtain ⟨labels, -, hdefined⟩ := hpass.labels
    exact fun c hc => (hdefined c hc).2 p hp
  · exact List.isEmpty_iff.2 (hpass.outputs p hp)

/-- Nothing is left to report of an Assignment statement exactly if it passes. -/
theorem found_assignment {minLength : Nat} (hl : l.Valid minLength)
    (hline : line.toList = l.chars) :
    (l.value.analyze catalog (Token.ofLine line)).found available = [] ↔
      l.Passes minLength available catalog := by
  have h := l.value.checked_analyze catalog (Token.ofLine line)
  generalize l.value.analyze catalog (Token.ofLine line) = analysis at h
  cases h with
  | unbalanced f paren =>
    refine ⟨fun hnil => absurd hnil (Analysis.found_stopAt_ne_nil _ _), fun hpass => ?_⟩
    rw [LabelFlow.Assignment.parenFinding_eq_none_iff.2 (hline ▸ hpass.nested)] at paren
    cases paren
  | blank _ term =>
    rw [toList_term] at term
    exact ⟨fun hnil => absurd hnil (Analysis.found_stopAt_ne_nil _ _),
      fun hpass => absurd term hpass.term⟩
  | fault _ _ error symbols =>
    refine ⟨fun hnil => absurd hnil (Analysis.found_stopAt_ne_nil _ _), fun hpass => ?_⟩
    obtain ⟨labels, hsymbols, -⟩ := hpass.labels
    obtain ⟨as, has, -⟩ := hsymbols.exists_units l.termStart
    rw [inside_term hline, Access.ofTokens_eq_ok_iff.2 has] at symbols
    cases symbols
  | labels paren term accesses symbols =>
    have hnested : WellNested l.chars :=
      hline ▸ LabelFlow.Assignment.parenFinding_eq_none_iff.1 paren
    rw [toList_term] at term
    rw [inside_term hline] at symbols
    have hunits := Access.ofTokens_eq_ok_iff.1 symbols
    exact (found_problems hl hline hunits).trans (problems_known_iff_passes hl hnested term hunits)

end Assignment

end Layout

/-! ## Lines -/

namespace LineForm

theorem begins_iff {front line : String} :
    begins front line = true ↔ ∃ rest, line.toList = front.toList ++ rest := by
  rw [begins, List.isPrefixOf_iff_prefix]
  exact exists_congr fun rest => eq_comm

theorem ofLine_eq_blank_iff {line : String} : ofLine line = .blank ↔ line = "" := by
  unfold ofLine
  by_cases h : line = ""
  · simp [h]
  · rw [if_neg h]
    refine ⟨fun h' => ?_, fun h' => absurd h' h⟩
    split at h'
    · cases h'
    · split at h'
      · cases h'
      · split at h' <;> cases h'

theorem ofLine_eq_comment_iff {line : String} : ofLine line = .comment ↔
    (∃ rest, line.toList = '#' :: rest) ∨ ∃ rest, line.toList = '/' :: '/' :: rest := by
  have hbegins : (begins "#" line || begins "//" line) = true ↔
      (∃ rest, line.toList = '#' :: rest) ∨ ∃ rest, line.toList = '/' :: '/' :: rest := by
    rw [Bool.or_eq_true, begins_iff, begins_iff]
    rfl
  rw [← hbegins]
  unfold ofLine
  by_cases h : line = ""
  · rw [if_pos h, h]
    decide
  · rw [if_neg h]
    by_cases h' : (begins "#" line || begins "//" line) = true
    · rw [if_pos h']
      exact ⟨fun _ => h', fun _ => rfl⟩
    · rw [if_neg h']
      refine ⟨fun hform => ?_, fun hform => absurd hform h'⟩
      split at hform
      · cases hform
      · split at hform <;> cases hform

end LineForm

/-- A line that reads as an Assignment statement is classified as one. -/
theorem Assignment.ofLine_of_layout {line : String} {l : Layout.Assignment}
    (h : line.toList = l.chars) : LineForm.ofLine line = .assignment := by
  rw [chars_eq] at h
  have hne : line ≠ "" := by
    intro he
    rw [he] at h
    cases h
  have hno : (LineForm.begins "#" line || LineForm.begins "//" line) = false := by
    rw [LineForm.begins, LineForm.begins, h]
    rfl
  have hother : LineForm.begins forwardingKeyword line = false := by
    rw [LineForm.begins, h]
    rfl
  have hkey : LineForm.begins assignmentKeyword line = true := LineForm.begins_iff.2 ⟨_, h⟩
  rw [LineForm.ofLine, if_neg hne, hno, hother, hkey]
  rfl

namespace Validator

variable {v : Validator} {available : List String} {line : String}

/-- Nothing is left to report of a line exactly if it is accepted. -/
theorem found_eq_nil_iff : (v.analyze line).found available = [] ↔ v.Accepts available line := by
  refine ⟨fun h => ?_, fun h => ?_⟩
  · have hcheck := v.checked_analyze line
    generalize v.analyze line = analysis at hcheck h
    cases hcheck with
    | blank form => exact .blank (LineForm.ofLine_eq_blank_iff.1 form)
    | comment form =>
      obtain ⟨rest, hrest⟩ | ⟨rest, hrest⟩ := LineForm.ofLine_eq_comment_iff.1 form
      · exact .hash rest hrest
      · exact .slashes rest hrest
    | unknown | noForwarding | noAssignment => cases h
    | forwarding _ f parts =>
      obtain ⟨first, more, hps, hline, rfl⟩ := Forwarding.parse?_eq_some_iff.1 parts
      exact .forwarding first more hline ((found_forwarding hps hline).1 h)
    | assignment _ a parts =>
      obtain ⟨l, hl, hline, rfl⟩ := Assignment.parse?_eq_some_iff.1 parts
      exact .assignment l hline ((Layout.Assignment.found_assignment hl hline).1 h)
  · unfold analyze
    cases h with
    | blank h =>
      rw [LineForm.ofLine_eq_blank_iff.2 h]
      rfl
    | hash rest h =>
      rw [LineForm.ofLine_eq_comment_iff.2 (.inl ⟨rest, h⟩)]
      rfl
    | slashes rest h =>
      rw [LineForm.ofLine_eq_comment_iff.2 (.inr ⟨rest, h⟩)]
      rfl
    | forwarding first more h passes =>
      have hps : ∀ p ∈ first :: more, p.Valid (OptionalName v.config.minNameLength) :=
        fun p hp => (passes.names p hp).optional
      rw [Forwarding.ofLine_of_layout h,
        Forwarding.parse?_eq_some_iff.2 ⟨first, more, hps, h, rfl⟩]
      exact (found_forwarding hps h).2 passes
    | assignment l h passes =>
      rw [Assignment.ofLine_of_layout h, Assignment.parse?_layout passes.valid h]
      exact (Layout.Assignment.found_assignment passes.valid h).2 passes

end Validator

/-- Acceptance is exact: a text has no diagnostics on a node exactly if every line is blank, a
comment or a statement that passes every check. -/
theorem validate_eq_nil_iff (v : Validator) (text : String) (available : List String) :
    (∃ fetches, v.validate text (.node available) = .ok ⟨[], fetches⟩) ↔
      ∀ line ∈ Text.lines text, v.Accepts available line := by
  rw [v.validate_node text available]
  simp only [Except.ok.injEq, Outcome.mk.injEq, exists_and_left, exists_eq', and_true,
    List.flatMap_eq_nil_iff, Validator.report, List.map_eq_nil_iff, Validator.found_eq_nil_iff]
  refine ⟨fun h line hline => ?_, fun h e he => ?_⟩
  · obtain ⟨i, hi⟩ := List.mem_iff_getElem?.1 hline
    exact h (line, i) (List.mk_mem_zipIdx_iff_getElem?.2 hi)
  · have hline := List.mem_zipIdx_iff_getElem?.1 he
    exact h e.1 (List.mem_iff_getElem?.2 ⟨e.2, hline⟩)

/-- A comment and a statement of each kind. -/
theorem validate_eq_nil_iff_accepted :
    ∀ line ∈ Text.lines "# a\nForwarding(\x7ba\x7d)\nAssignment(\x7ba\x7d;!(T.V);\x7bT.\x7d)",
      (Validator.standard none).Accepts ["a"] line :=
  (validate_eq_nil_iff (.standard none) _ _).1 ⟨1, by rfl⟩

end LabelFlow
