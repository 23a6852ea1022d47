import LabelFlow.Proofs.Selection

/-!
# What a catalog changes

A catalog matters to the check of labels by the names of its types and by its entries, which are
the values with the names of their types (`Assignment.labelProblem?_eq`). Without a catalog the
diagnostics of undefined labels are missing from a report, with a larger one those of the values it
adds (`catalog_label_diagnostics`), and catalogs that define the same give the same reports
(`catalog_definitions_suffice`).
-/

set_option autoImplicit false

namespace LabelFlow

/-- The values of a type, with the name of the type. -/
def LabelType.entries (t : LabelType) : List (String × String) :=
  t.texts.map fun text => (t.name, text)

namespace Catalog

/-- The values of all types, with the names of their types. -/
def entries (c : Catalog) : List (String × String) := c.types.flatMap LabelType.entries

/-- The types of a larger catalog have the same names, and each has the same values at least. -/
structure GrowsTo (c larger : Catalog) : Prop where
  names : ∀ name, name ∈ larger.names ↔ name ∈ c.names
  entries : ∀ e ∈ c.entries, e ∈ larger.entries

/-- Label types with the same names and the same values for each name, in whatever order and with
whatever identifiers. -/
structure SameDefinitions (first second : List LabelType) : Prop where
  names : ∀ name, name ∈ first.map LabelType.name ↔ name ∈ second.map LabelType.name
  entries : ∀ e, e ∈ first.flatMap LabelType.entries ↔ e ∈ second.flatMap LabelType.entries

/-! ## Looking labels up -/

variable {c : Catalog} {types : List LabelType}

/-- A catalog holds the label types it is made of. -/
theorem types_of_ofTypes (h : ofTypes types = .ok c) : c.types = types := by
  unfold ofTypes at h
  split at h
  · cases h
  · rw [← Except.ok.inj h]

theorem find?_eq_none_iff {name : String} : c.find? name = none ↔ name ∉ c.names := by
  rw [find?, List.find?_eq_none, names, List.mem_map]
  simp only [beq_iff_eq, not_exists, not_and]

/-- The values of the type that is found by its name are all values under this name, since no other
type has it. -/
theorem mem_texts_iff {name value : String} {t : LabelType} (h : c.find? name = some t) :
    value ∈ t.texts ↔ (name, value) ∈ c.entries := by
  obtain ⟨ht, rfl⟩ := find?_eq_some_iff.1 h
  simp only [entries, LabelType.entries, List.mem_flatMap, List.mem_map, Prod.mk.injEq]
  refine ⟨fun hv => ⟨t, ht, value, hv, rfl, rfl⟩, fun hv => ?_⟩
  obtain ⟨u, hu, x, hx, hname, rfl⟩ := hv
  have hfind := find?_eq_some_iff.2 ⟨hu, hname⟩
  obtain rfl : t = u := Option.some.inj (h.symm.trans hfind)
  exact hx

end Catalog

/-- The problem of a label depends on the names and the entries of the catalog. -/
theorem Assignment.labelProblem?_eq (c : Catalog) (labelType value : String) :
    labelProblem? c labelType value =
      if labelType ∉ c.names then some (.unknownLabelType labelType)
      else if value = "" ∨ (labelType, value) ∈ c.entries then none
      else some (.unknownLabelValue labelType value) := by
  unfold labelProblem?
  cases hfind : c.find? labelType with
  | none => rw [if_pos (Catalog.find?_eq_none_iff.1 hfind)]
  | some t =>
    have hname : ¬ labelType ∉ c.names := by
      rw [← Catalog.find?_eq_none_iff, hfind]
      exact Option.some_ne_none t
    simp only [if_neg hname, LabelType.hasValue, List.contains_iff_mem,
      Catalog.mem_texts_iff hfind]

/-! ## Problems that are left out -/

/-- A label that the catalog does not define. -/
def Problem.isUndefined : Problem → Bool
  | .unknownLabelType _ | .unknownLabelValue _ _ => true
  | _ => false

/-- No finding of a Forwarding statement is about a label. -/
theorem Forwarding.isUndefined_of_mem {tokens : List Token} {s : Forwarding} {f : Finding}
    (hf : f ∈ (s.analyze tokens).findings) : f.problem.isUndefined = false := by
  obtain h | h | ⟨_, h⟩ | ⟨-, _, h⟩ := problem_of_mem hf <;> rw [h] <;> rfl

/-! ## Two catalogs -/

section
variable {kept : Problem → Bool} {c d : Option Catalog}
  (hother : ∀ p : Problem, p.isUndefined = false → kept p = true)

section
include hother

theorem Analysis.eq_keep {a : Analysis} (h : ∀ f ∈ a.findings, f.problem.isUndefined = false) :
    a = a.keep kept :=
  (keep_eq_self fun f hf => hother _ (h f hf)).symm

theorem Analysis.stopAt_eq_keep {f : Finding} (h : f.problem.isUndefined = false) :
    stopAt [f] = (stopAt [f]).keep kept := by
  refine eq_keep hother fun g hg => ?_
  rw [List.mem_singleton.1 hg]
  exact h

end

variable (hlabels : ∀ labelType value, Assignment.labelProblems d labelType value =
  (Assignment.labelProblems c labelType value).filter kept)
include hother hlabels

theorem Assignment.problems_keep (accesses : List Access) (a : Assignment) :
    a.problems d accesses = (a.problems c accesses).filter kept := by
  have hinputs : (a.inputs.map fun n => Problem.unknownInput n.text).filter kept =
      a.inputs.map fun n => .unknownInput n.text :=
    List.filter_eq_self.2 (List.forall_mem_map.2 fun _ _ => hother _ rfl)
  have houtput : outputProblems d = fun o => (outputProblems c o).filter kept := by
    funext o
    rw [outputProblems, outputProblems, List.filter_append, ← hlabels]
    by_cases ho : o.extra.isEmpty = true
    · rw [if_pos ho, List.filter_nil]
    · rw [if_neg ho, List.filter_cons_of_pos (hother _ rfl), List.filter_nil]
  simp only [problems, List.filter_append, List.filter_flatMap, hlabels, houtput, hinputs]

theorem Assignment.analyze_keep (tokens : List Token) (a : Assignment) :
    a.analyze d tokens = (a.analyze c tokens).keep kept := by
  unfold analyze
  split
  · rename_i f paren
    obtain rfl | ⟨t, -, -, rfl⟩ := parenFinding_eq_some paren <;>
      exact Analysis.stopAt_eq_keep hother rfl
  split
  · exact Analysis.stopAt_eq_keep hother rfl
  split
  · exact Analysis.stopAt_eq_keep hother rfl
  · rename_i accesses _
    rw [Analysis.keep, filter_flatMap_of_forall
      fun p f hf => congrArg kept (problem_of_mem_findings hf), ← eraseDups_filter,
      ← problems_keep hother hlabels]

theorem Validator.analyze_keep (config : Config) (line : String) :
    (Validator.mk config d).analyze line = ((Validator.mk config c).analyze line).keep kept := by
  simp only [analyze]
  split
  · rfl
  · rfl
  · exact Analysis.stopAt_eq_keep hother rfl
  · split
    · exact Analysis.stopAt_eq_keep hother rfl
    · exact Analysis.eq_keep hother fun f hf => Forwarding.isUndefined_of_mem hf
  · split
    · exact Analysis.stopAt_eq_keep hother rfl
    · exact Assignment.analyze_keep hother hlabels _ _

/-- On a node a text gives with one catalog what it gives with the other, less the diagnostics of
the problems that are left out. -/
theorem Validator.validate_keep {shown : Diagnostic → Bool}
    (hshown : ∀ f number line, shown (Finding.diagnostic f number line) = kept f.problem)
    (config : Config) (text : String) (inputs : List String) :
    ∃ o, (Validator.mk config c).validate text (.node inputs) = .ok o ∧
      (Validator.mk config d).validate text (.node inputs) =
        .ok { o with diagnostics := o.diagnostics.filter shown } := by
  have hkeep := analyze_keep hother hlabels config
  refine validate_filter hshown (fun line => ?_) (fun line => ?_) text
  · rw [hkeep]
    rfl
  · rw [hkeep, Analysis.found_keep]

end

/-! ## No catalog, and a larger one -/

theorem Finding.isUndefined_iff {f : Finding} {number : Nat} {line : String} :
    ((f.diagnostic number line).id = "BHV2101" ∨ (f.diagnostic number line).id = "BHV2102") ↔
      f.problem.isUndefined = true := by
  obtain ⟨p, s⟩ := f
  cases p <;> simp [diagnostic, Problem.code, Code.id, Problem.isUndefined]

/-- Reports that the type does not have the value. -/
def Diagnostic.RejectsValue (d : Diagnostic) (labelType value : String) : Prop :=
  d.id = "BHV2102" ∧ d.value? "labelType" = some labelType ∧ d.value? "labelValue" = some value

instance (d : Diagnostic) (labelType value : String) : Decidable (d.RejectsValue labelType value) :=
  inferInstanceAs (Decidable
    (d.id = "BHV2102" ∧ d.value? "labelType" = some labelType ∧ d.value? "labelValue" = some value))

theorem Finding.rejectsValue_iff {f : Finding} {number : Nat} {line labelType value : String} :
    (f.diagnostic number line).RejectsValue labelType value ↔
      f.problem = .unknownLabelValue labelType value := by
  obtain ⟨p, s⟩ := f
  cases p <;> simp [Diagnostic.RejectsValue, diagnostic, Diagnostic.value?, Problem.code, Code.id,
    Problem.context?, Context.ofList, Context.find?_insert]

/-- A problem that is also one with this catalog, if it is one with a smaller catalog: it is not
about a value that the catalog lists. -/
def Problem.staysWith (c : Catalog) (p : Problem) : Bool :=
  ∀ e ∈ c.entries, p ≠ .unknownLabelValue e.1 e.2

theorem Problem.staysWith_iff {c : Catalog} {p : Problem} :
    p.staysWith c = true ↔ ∀ e ∈ c.entries, p ≠ .unknownLabelValue e.1 e.2 :=
  decide_eq_true_iff

namespace Assignment

theorem labelProblems_none (c : Option Catalog) (labelType value : String) :
    labelProblems none labelType value =
      (labelProblems c labelType value).filter fun p => !p.isUndefined := by
  refine (List.filter_eq_nil_iff.2 fun p hp => ?_).symm
  obtain rfl | ⟨-, rfl⟩ := mem_labelProblems hp <;> exact Bool.false_ne_true

theorem labelProblems_larger {c larger : Catalog} (h : c.GrowsTo larger)
    (labelType value : String) : labelProblems (some larger) labelType value =
      (labelProblems (some c) labelType value).filter (Problem.staysWith larger) := by
  have hstays : ∀ p : Problem, (∀ e ∈ larger.entries, p ≠ .unknownLabelValue e.1 e.2) →
      (some p).toList = (some p).toList.filter (Problem.staysWith larger) := by
    intro p hp
    rw [Option.toList_some, List.filter_cons_of_pos (Problem.staysWith_iff.2 hp), List.filter_nil]
  simp only [labelProblems, Option.bind_some, labelProblem?_eq, h.names]
  by_cases hname : labelType ∉ c.names
  · simp only [if_pos hname]
    refine hstays _ fun e _ heq => ?_
    cases heq
  simp only [if_neg hname]
  by_cases hc : value = "" ∨ (labelType, value) ∈ c.entries
  · rw [if_pos hc, if_pos (hc.imp_right (h.entries _))]
    rfl
  rw [if_neg hc]
  -- the smaller catalog rejects the value, so it is up to the larger one whether this stays
  by_cases hlarger : (labelType, value) ∈ larger.entries
  · rw [if_pos (.inr hlarger)]
    have hgone : ¬ Problem.staysWith larger (.unknownLabelValue labelType value) = true :=
      fun hstays => Problem.staysWith_iff.1 hstays _ hlarger rfl
    rw [Option.toList_some, List.filter_cons_of_neg hgone, List.filter_nil, Option.toList_none]
  · rw [if_neg fun hv => hv.elim (fun he => hc (.inl he)) hlarger]
    refine hstays _ fun e he heq => ?_
    cases heq
    exact hlarger he

end Assignment

/-- A catalog adds label diagnostics only, and a larger one takes away value diagnostics only: a
text gives without a catalog what it gives with one, in the same order, less the diagnostics of
unknown types and values; and with a catalog of the same types with more values what it gives with
the smaller one, less those of values that the larger one lists under their type. -/
theorem catalog_label_diagnostics (config : Config) (c : Catalog) (text : String)
    (inputs : List String) :
    (∃ o, (Validator.mk config (some c)).validate text (.node inputs) = .ok o ∧
      (Validator.mk config none).validate text (.node inputs) = .ok { o with
        diagnostics := o.diagnostics.filter fun d => ¬ (d.id = "BHV2101" ∨ d.id = "BHV2102") }) ∧
    ∀ larger : Catalog, c.GrowsTo larger →
      ∃ o, (Validator.mk config (some c)).validate text (.node inputs) = .ok o ∧
        (Validator.mk config (some larger)).validate text (.node inputs) = .ok { o with
          diagnostics := o.diagnostics.filter fun d =>
            ∀ e ∈ larger.entries, ¬ d.RejectsValue e.1 e.2 } := by
  refine ⟨Validator.validate_keep (fun p hp => ?_) (Assignment.labelProblems_none (some c))
    (fun f number line => ?_) config text inputs, fun larger hlarger =>
    Validator.validate_keep (fun p hp => ?_) (Assignment.labelProblems_larger hlarger)
    (fun f number line => ?_) config text inputs⟩
  · rw [hp]
    rfl
  · simp only [Finding.isUndefined_iff, decide_not, Bool.decide_eq_true]
  · refine Problem.staysWith_iff.2 fun e _ he => ?_
    rw [he] at hp
    cases hp
  · simp only [Finding.rejectsValue_iff, Problem.staysWith, ne_eq]

/-- An unknown type and two unknown values of a known one, of which a larger catalog lists one. -/
theorem catalog_label_diagnostics_value : ∃ c larger : Catalog,
    Catalog.ofTypes [.ofTexts "A" ["x"]] = .ok c ∧
    Catalog.ofTypes [.ofTexts "A" ["y", "x"]] = .ok larger ∧ c.GrowsTo larger ∧
    ∃ o, (Validator.standard (some c)).validate "Assignment(\x7b\x7d;A.y&&A.w||B.x;\x7b\x7d)"
        (.node []) = .ok o ∧
      (Validator.standard (some larger)).validate "Assignment(\x7b\x7d;A.y&&A.w||B.x;\x7b\x7d)"
        (.node []) = .ok { o with
          diagnostics := o.diagnostics.filter fun d =>
            ∀ e ∈ larger.entries, ¬ d.RejectsValue e.1 e.2 } ∧
      o.diagnostics.map (Diagnostic.value? · "labelValue") = [some "y", some "w", none] ∧
      (o.diagnostics.filter fun d => ∀ e ∈ larger.entries, ¬ d.RejectsValue e.1 e.2).map
        (Diagnostic.value? · "labelValue") = [some "w", none] := by
  obtain ⟨c, hc⟩ : ∃ c, Catalog.ofTypes [.ofTexts "A" ["x"]] = .ok c := ⟨_, rfl⟩
  obtain ⟨larger, hl⟩ : ∃ c, Catalog.ofTypes [.ofTexts "A" ["y", "x"]] = .ok c := ⟨_, rfl⟩
  have hgrows : c.GrowsTo larger := by
    cases hc
    cases hl
    exact ⟨fun _ => Iff.rfl, by decide⟩
  obtain ⟨-, hlarger⟩ :=
    catalog_label_diagnostics .default c "Assignment(\x7b\x7d;A.y&&A.w||B.x;\x7b\x7d)" []
  obtain ⟨o, ho, hless⟩ := hlarger larger hgrows
  refine ⟨c, larger, hc, hl, hgrows, o, ho, hless, ?_⟩
  cases hc
  cases hl
  rw [Validator.validate_node] at ho
  cases ho
  exact ⟨rfl, rfl⟩

/-! ## Catalogs that define the same -/

/-- Two catalogs with the same names and entries find the same wrong with every line. -/
theorem Validator.analyze_of_sameDefinitions {a b : Catalog}
    (same : Catalog.SameDefinitions a.types b.types) (config : Config) (line : String) :
    (Validator.mk config (some b)).analyze line = (Validator.mk config (some a)).analyze line := by
  have hnames : ∀ name, name ∈ b.names ↔ name ∈ a.names := fun name => (same.names name).symm
  have hentries : ∀ e, e ∈ b.entries ↔ e ∈ a.entries := fun e => (same.entries e).symm
  have hlabels : ∀ labelType value, Assignment.labelProblems (some b) labelType value =
      (Assignment.labelProblems (some a) labelType value).filter fun _ => true := by
    intro labelType value
    simp only [Assignment.labelProblems, Option.bind_some, Assignment.labelProblem?_eq, hnames,
      hentries, List.filter_true]
  rw [analyze_keep (fun _ _ => rfl) hlabels, Analysis.keep_eq_self fun _ _ => rfl]

/-- Validation depends on a catalog through what it defines only: catalogs of the same type names
and the same values of each give the same for every text and owner, with any settings. A catalog
holds each name once, so looking a name up finds all there is under it; among label types that
repeat a name, what the first one of the name lists depends on their order. -/
theorem catalog_definitions_suffice :
    (∀ (first second : List LabelType) (a b : Catalog), Catalog.ofTypes first = .ok a →
      Catalog.ofTypes second = .ok b → Catalog.SameDefinitions first second →
      ∀ config text owner, (Validator.mk config (some a)).validate text owner =
        (Validator.mk config (some b)).validate text owner) ∧
    (∀ types c, Catalog.ofTypes types = .ok c → (types.map LabelType.name).Nodup ∧
      ∀ t ∈ types, c.find? t.name = some t) ∧
    ∃ (first second : List LabelType) (name value : String),
      Catalog.SameDefinitions first second ∧
        (first.find? fun t => t.name == name).any (LabelType.hasValue · value) = true ∧
        (second.find? fun t => t.name == name).any (LabelType.hasValue · value) = false := by
  refine ⟨fun first second a b ha hb same config text owner => ?_, fun types c hc => ?_,
    [.ofTexts "A" ["x"], .ofTexts "A" []], [.ofTexts "A" [], .ofTexts "A" ["x"]], "A", "x",
    ⟨fun _ => Iff.rfl, fun _ => Iff.rfl⟩, by decide, by decide⟩
  · rw [← Catalog.types_of_ofTypes ha, ← Catalog.types_of_ofTypes hb] at same
    have hanalyze := Validator.analyze_of_sameDefinitions same config
    exact (Validator.validate_congr hanalyze text owner).symm
  · obtain rfl := Catalog.types_of_ofTypes hc
    exact ⟨c.wellFormed.distinctNames, fun t ht => Catalog.find?_eq_some_iff.2 ⟨ht, rfl⟩⟩

/-- Types and values in another order and with other identifiers reject the same labels. -/
theorem catalog_definitions_suffice_reordered : ∃ (a b : Catalog) (o : Outcome),
    Catalog.ofTypes [.ofTexts "A" ["x", "y"], .ofTexts "B" []] = .ok a ∧
    Catalog.ofTypes [⟨"1", "B", []⟩, ⟨"2", "A", [⟨"3", "y"⟩, ⟨"", "x"⟩]⟩] = .ok b ∧
    (Validator.standard (some b)).validate "Assignment(\x7b\x7d;A.y&&C.x;\x7bB.z\x7d)" (.node []) =
      .ok o ∧
    (Validator.standard (some a)).validate "Assignment(\x7b\x7d;A.y&&C.x;\x7bB.z\x7d)" (.node []) =
      .ok o ∧
    o.diagnostics.map Diagnostic.id = ["BHV2101", "BHV2102"] := by
  obtain ⟨a, ha⟩ : ∃ a, Catalog.ofTypes [.ofTexts "A" ["x", "y"], .ofTexts "B" []] = .ok a :=
    ⟨_, rfl⟩
  obtain ⟨b, hb⟩ : ∃ b, Catalog.ofTypes
    [⟨"1", "B", []⟩, ⟨"2", "A", [⟨"3", "y"⟩, ⟨"", "x"⟩]⟩] = .ok b := ⟨_, rfl⟩
  have hdefine : Catalog.SameDefinitions [.ofTexts "A" ["x", "y"], .ofTexts "B" []]
      [⟨"1", "B", []⟩, ⟨"2", "A", [⟨"3", "y"⟩, ⟨"", "x"⟩]⟩] := by
    refine ⟨fun name => ?_, fun e => ?_⟩
    · simp [LabelType.ofTexts, or_comm]
    · simp [LabelType.ofTexts, LabelType.entries, LabelType.texts, or_comm]
  obtain ⟨hsame, -, -⟩ := catalog_definitions_suffice
  have hvalidate := hsame _ _ a b ha hb hdefine .default
    "Assignment(\x7b\x7d;A.y&&C.x;\x7bB.z\x7d)"
  obtain ⟨o, ho⟩ : ∃ o, (Validator.standard (some b)).validate
    "Assignment(\x7b\x7d;A.y&&C.x;\x7bB.z\x7d)" (.node []) = .ok o :=
    ⟨_, Validator.validate_node _ _ _⟩
  refine ⟨a, b, o, ha, hb, ho, (hvalidate _).trans ho, ?_⟩
  cases hb
  cases ho
  rfl

end LabelFlow
