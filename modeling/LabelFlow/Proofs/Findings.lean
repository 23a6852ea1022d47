import LabelFlow.Proofs.Checks
import LabelFlow.Proofs.Forwarding
import LabelFlow.Proofs.Parens
import LabelFlow.Proofs.Regions

/-!
# Where findings stand

A finding about a name, a comma or a parenthesis has a span that covers it, every other one is of
the whole line (`Finding.Marks`). `Validator.marks_analyze`: all findings of a line are so.
-/

set_option autoImplicit false

namespace LabelFlow

open Text Layout

/-- The text that a problem is about, if it is not the whole line. -/
def Problem.quoted? : Problem → Option String
  | .duplicateInput name => some name
  | .unknownInput name => some name
  | .unknownLabelType labelType => some labelType
  | .unknownLabelValue _ value => some value
  | .trailingComma => some ","
  | .missingOpeningParen => some ")"
  | _ => none

/-- The span of a finding covers what it is about. -/
def Finding.Marks (line : List Char) (f : Finding) : Prop :=
  match f.problem.quoted? with
  | some text => text.toList ≠ [] ∧ ∃ s, f.span = some s ∧ s.Covers line text.toList
  | none => line ≠ [] ∧ f.span = none

/-! ## Parentheses -/

namespace Assignment

/-- What is reported is a closing parenthesis, or the whole line. -/
theorem parenFinding_eq_some {depth : Nat} {ts : List Token} {f : Finding}
    (h : parenFinding depth ts = some f) : f = .wholeLine .missingClosingParen ∨
      ∃ t ∈ ts, t.kind = .closeParen ∧ f = ⟨.missingOpeningParen, some t.span⟩ := by
  induction ts generalizing depth with
  | nil =>
    unfold parenFinding at h
    split at h
    · cases h
    · exact .inl (Option.some.inj h).symm
  | cons t ts ih =>
    have hrest : ∀ {d : Nat}, parenFinding d ts = some f → f = .wholeLine .missingClosingParen ∨
        ∃ u ∈ t :: ts, u.kind = .closeParen ∧ f = ⟨.missingOpeningParen, some u.span⟩ := by
      intro d hd
      refine (ih hd).imp_right fun h => ?_
      obtain ⟨u, hu, h⟩ := h
      exact ⟨u, List.mem_cons_of_mem t hu, h⟩
    obtain hopen | hclose | hother := t.paren_cases
    · rw [parenFinding_open hopen] at h
      exact hrest h
    · cases depth with
      | zero =>
        rw [parenFinding_close_zero hclose, Option.some.injEq] at h
        exact .inr ⟨t, List.mem_cons_self, hclose, h.symm⟩
      | succ depth =>
        rw [parenFinding_close_succ hclose] at h
        exact hrest h
    · rw [parenFinding_of_not_paren hother] at h
      exact hrest h

theorem marks_parenFinding {line : String} {f : Finding} (hne : line.toList ≠ [])
    (h : parenFinding 0 (Token.ofLine line) = some f) : f.Marks line.toList := by
  rcases parenFinding_eq_some h with rfl | ⟨t, ht, hk, rfl⟩
  · exact ⟨hne, rfl⟩
  · have hcover := Token.covers_of_mem_ofText (a := []) (b := []) ht
    have htext := Token.text_of_mem_ofText (k := .closeParen) rfl ht hk
    rw [htext, List.nil_append, List.append_nil] at hcover
    exact ⟨List.cons_ne_nil _ _, _, rfl, hcover⟩

/-! ## Labels and inputs -/

/-- The types and values of the accesses and of the outputs; an absent value is empty. -/
def labels (accesses : List Access) (a : Assignment) : List (String × String) :=
  accesses.map (fun l => (l.labelType.text, l.value.text)) ++
    a.outputs.map fun o => (o.labelType.text, o.valueText)

theorem mem_labelProblems {catalog : Option Catalog} {labelType value : String} {p : Problem}
    (h : p ∈ labelProblems catalog labelType value) : p = .unknownLabelType labelType ∨
      value ≠ "" ∧ p = .unknownLabelValue labelType value := by
  rw [labelProblems, Option.mem_toList, Option.bind_eq_some_iff] at h
  obtain ⟨c, -, h⟩ := h
  unfold labelProblem? at h
  split at h
  · exact .inl (Option.some.inj h).symm
  · split at h
    · cases h
    · rename_i hv
      exact .inr ⟨fun he => hv (.inl he), (Option.some.inj h).symm⟩

/-- A problem is about an input, a label or the form of an output. -/
theorem mem_problems {catalog : Option Catalog} {accesses : List Access} {a : Assignment}
    {p : Problem} (h : p ∈ a.problems catalog accesses) :
    (∃ n ∈ a.inputs, p = .unknownInput n.text) ∨ p = .invalidLabelDefinition ∨
      ∃ l ∈ labels accesses a, p = .unknownLabelType l.1 ∨
        l.2 ≠ "" ∧ p = .unknownLabelValue l.1 l.2 := by
  simp only [problems, List.mem_append, List.mem_flatMap, List.mem_map] at h
  rcases h with (⟨l, hl, h⟩ | ⟨n, hn, rfl⟩) | ⟨o, ho, h⟩
  · exact .inr (.inr ⟨_, List.mem_append_left _ (List.mem_map_of_mem hl), mem_labelProblems h⟩)
  · exact .inl ⟨n, hn, rfl⟩
  · rcases List.mem_append.1 h with h | h
    · exact .inr (.inr ⟨_, List.mem_append_right _ (List.mem_map_of_mem ho), mem_labelProblems h⟩)
    · split at h
      · cases h
      · exact .inr (.inl (List.mem_singleton.1 h))

end Assignment

namespace Layout.Assignment

variable {minLength : Nat} {l : Assignment} {line : String} {accesses : List Access}

/-- The type of a label is found in front of a dot. -/
theorem exists_place_type (hl : l.Valid minLength)
    (hunits : Symbol.Units (Token.ofText l.termStart l.term) accesses) {e : String × String}
    (he : e ∈ LabelFlow.Assignment.labels accesses l.value) :
    ∃ s, s ∈ Token.placesOf (Token.ofText l.termStart l.labelRegion) e.1 .beforeDot := by
  rcases List.mem_append.1 he with he | he
  · obtain ⟨a, ha, rfl⟩ := List.mem_map.1 he
    rw [labelRegion, Token.ofText_append _ (.of_head rfl)]
    exact ⟨_, List.mem_map_of_mem (hunits.mem_startsOf ha _).1⟩
  · obtain ⟨o, ho, rfl⟩ := List.mem_map.1 he
    exact ⟨_, List.mem_map_of_mem (mem_startsOf_outputType hl ho)⟩

/-- The value of a label is found behind a dot, if it is there. -/
theorem exists_place_value (hl : l.Valid minLength)
    (hunits : Symbol.Units (Token.ofText l.termStart l.term) accesses) {e : String × String}
    (he : e ∈ LabelFlow.Assignment.labels accesses l.value) (hne : e.2 ≠ "") :
    ∃ s, s ∈ Token.placesOf (Token.ofText l.termStart l.labelRegion) e.2 .afterDot := by
  rcases List.mem_append.1 he with he | he
  · obtain ⟨a, ha, rfl⟩ := List.mem_map.1 he
    rw [labelRegion, Token.ofText_append _ (.of_head rfl)]
    exact ⟨_, List.mem_map_of_mem (hunits.mem_startsOf ha _).2⟩
  · obtain ⟨o, ho, rfl⟩ := List.mem_map.1 he
    cases hv : o.value with
    | none => exact absurd (by rw [OutputLabel.valueText, hv]; rfl) hne
    | some v =>
      have htext : o.valueText = v.text := by
        rw [OutputLabel.valueText, hv]
        rfl
      rw [htext]
      exact ⟨_, List.mem_map_of_mem (mem_startsOf_outputValue hl ho hv)⟩

theorem chars_ne_nil (hline : line.toList = l.chars) : line.toList ≠ [] := by
  intro h
  rw [hline] at h
  cases h

/-- An input has a first place, which covers it. -/
theorem firstPlaceOf_input (hl : l.Valid minLength) (hline : line.toList = l.chars) {n : Name}
    (hn : n ∈ l.value.inputs) :
    ∃ s, Token.firstPlaceOf (Token.ofText l.inputsOpen l.inputRegion) n.text = some s ∧
      n.text.toList ≠ [] ∧ s.Covers line.toList n.text.toList := by
  obtain ⟨s, hs⟩ := Token.firstPlaceOf_of_mem (mem_startsOf_input hl hn)
  refine ⟨s, hs, ?_⟩
  rw [hline, chars_eq_inputs]
  rw [← width_beforeInputs] at hs
  have hmem := List.mem_of_mem_head? hs
  exact ⟨Token.ne_nil_of_mem_placesOf hmem, Token.covers_of_mem_placesOf hmem⟩

/-- Every problem of a statement has findings, and all of them are of the problem and in place. -/
theorem findings_spec (hl : l.Valid minLength) (hline : line.toList = l.chars)
    (hunits : Symbol.Units (Token.ofText l.termStart l.term) accesses) {catalog : Option Catalog}
    {p : Problem} (hp : p ∈ l.value.problems catalog accesses) :
    (∃ f, f ∈ l.value.findings (Token.ofLine line) p) ∧
      ∀ f ∈ l.value.findings (Token.ofLine line) p, f.problem = p ∧ f.Marks line.toList := by
  have hplace : ∀ {name : String} {surrounding : Surrounding} {s : Span},
      s ∈ Token.placesOf (Token.ofText l.termStart l.labelRegion) name surrounding →
        name.toList ≠ [] ∧ s.Covers line.toList name.toList := by
    intro name surrounding s hs
    rw [hline, chars_eq_labels]
    rw [← width_beforeLabels] at hs
    exact ⟨Token.ne_nil_of_mem_placesOf hs, Token.covers_of_mem_placesOf hs⟩
  rcases LabelFlow.Assignment.mem_problems hp with ⟨n, hn, rfl⟩ | rfl | ⟨e, he, rfl | ⟨hne, rfl⟩⟩
  · obtain ⟨s, hs, hcover⟩ := firstPlaceOf_input hl hline hn
    simp only [LabelFlow.Assignment.findings, inside_inputs hline, hs, List.mem_singleton]
    refine ⟨⟨_, rfl⟩, fun f hf => ?_⟩
    rw [hf]
    exact ⟨rfl, hcover.1, s, rfl, hcover.2⟩
  · simp only [LabelFlow.Assignment.findings, List.mem_singleton]
    refine ⟨⟨_, rfl⟩, fun f hf => ?_⟩
    rw [hf]
    exact ⟨rfl, chars_ne_nil hline, rfl⟩
  · simp only [LabelFlow.Assignment.findings, inside_labels hline, List.mem_map]
    obtain ⟨s, hs⟩ := exists_place_type hl hunits he
    refine ⟨⟨_, s, hs, rfl⟩, fun f hf => ?_⟩
    obtain ⟨s, hs, rfl⟩ := hf
    exact ⟨rfl, (hplace hs).1, s, rfl, (hplace hs).2⟩
  · simp only [LabelFlow.Assignment.findings, inside_labels hline, List.mem_map]
    obtain ⟨s, hs⟩ := exists_place_value hl hunits he hne
    refine ⟨⟨_, s, hs, rfl⟩, fun f hf => ?_⟩
    obtain ⟨s, hs, rfl⟩ := hf
    exact ⟨rfl, (hplace hs).1, s, rfl, (hplace hs).2⟩

/-- All findings of a statement are in place. -/
theorem marks_analyze (hl : l.Valid minLength) (hline : line.toList = l.chars)
    {catalog : Option Catalog} {f : Finding}
    (hf : f ∈ (l.value.analyze catalog (Token.ofLine line)).findings) : f.Marks line.toList := by
  have hne := chars_ne_nil hline
  have h := l.value.checked_analyze catalog (Token.ofLine line)
  generalize l.value.analyze catalog (Token.ofLine line) = analysis at h hf
  cases h with
  | unbalanced g paren =>
    obtain rfl := List.mem_singleton.1 hf
    exact LabelFlow.Assignment.marks_parenFinding hne paren
  | blank =>
    obtain rfl := List.mem_singleton.1 hf
    exact ⟨hne, rfl⟩
  | fault =>
    obtain rfl := List.mem_singleton.1 hf
    exact ⟨hne, rfl⟩
  | labels _ _ accesses symbols =>
    rw [inside_term hline, Access.ofTokens_eq_ok_iff] at symbols
    obtain ⟨p, hp, hf⟩ := List.mem_flatMap.1 hf
    exact ((findings_spec hl hline symbols (List.mem_eraseDups.1 hp)).2 f hf).2

end Layout.Assignment

/-! ## Forwarding -/

namespace NameList

/-- If all names are absent, so is one. -/
theorem any_of_all {l : NameList} (h : l.names.all Name.isAbsent = true) :
    l.names.any Name.isAbsent = true := by
  rw [names, List.all_cons, Bool.and_eq_true] at h
  rw [names, List.any_cons, h.1, Bool.true_or]

/-- If some names are missing but not all, there is a comma to blame. -/
theorem blamedComma_mem {l : NameList} (hsome : l.names.any Name.isAbsent = true)
    (hall : l.names.all Name.isAbsent ≠ true) : ∃ s ∈ l.commas, l.blamedComma = some s := by
  unfold blamedComma
  by_cases hfirst : l.first.isAbsent = true
  · rw [if_pos hfirst]
    cases hmore : l.more with
    | nil => exact absurd (by simp [names, hmore, hfirst]) hall
    | cons e more => exact ⟨e.1, by simp [commas, hmore], by simp [commas, hmore]⟩
  · rw [if_neg hfirst]
    cases hfind : l.more.find? fun e => e.2.isAbsent with
    | none =>
      have hno : l.more.any (fun e => e.2.isAbsent) = false := by
        simpa [List.find?_eq_none] using hfind
      simp [names, hfirst, List.any_map, Function.comp_def, hno] at hsome
    | some e => exact ⟨e.1, List.mem_map_of_mem (List.mem_of_find?_eq_some hfind), rfl⟩

theorem mem_distinct {l : NameList} {name : String} :
    name ∈ l.distinct ↔ ∃ n ∈ l.names, n.text = name := by
  rw [distinct, List.mem_eraseDups, List.mem_map]

/-- No name is repeated exactly if each stands in the list once. -/
theorem repeated_eq_nil_iff {l : NameList} :
    l.repeated = [] ↔ (l.names.map Name.text).Nodup := by
  rw [repeated, List.filter_eq_nil_iff, List.nodup_iff_count]
  refine ⟨fun h name => ?_, fun h name _ => ?_⟩
  · by_cases hm : name ∈ l.distinct
    · simpa using h name hm
    · have hnot : name ∉ l.names.map Name.text := fun hm' => hm (List.mem_eraseDups.2 hm')
      rw [List.count_eq_zero.2 hnot]
      omega
  · have := h name
    simp only [decide_eq_true_eq]
    omega

end NameList

namespace Layout

variable {minLength : Nat} {first : Item} {more : List Item} {line : String}

/-- A name of a Forwarding statement is found between its first and its last name. -/
theorem mem_startsOf_names (h : ∀ p ∈ first :: more, p.Valid (InputName minLength)) {n : Name}
    (hn : n ∈ (nameList 12 first more).names) : n.span.start ∈
      Token.startsOf (Token.ofText (width (beforeSpread first)) (spread first more)) n.text
        .identifier := by
  obtain ⟨w, a, b, hw, hab, hbound, rfl⟩ := exists_of_mem_names h hn
  rw [Token.mem_startsOf_identifier, Name.text_spelled, String.toList_ofList, width_beforeSpread]
  exact ⟨hw.1.ne_nil, a, b, hab, hw.1.isNamePart, hbound.before, hbound.after, rfl⟩

/-- The places of a name of a Forwarding statement cover it. -/
theorem places_names (h : ∀ p ∈ first :: more, p.Valid (InputName minLength))
    (hline : line.toList = forwarding first more) {name : String} {s : Span}
    (hs : s ∈ Token.placesOf (Token.inside (Token.ofLine line) (nameList 12 first more).span) name
      .identifier) : name.toList ≠ [] ∧ s.Covers line.toList name.toList := by
  rw [inside_forwarding h hline] at hs
  rw [hline, forwarding_eq_spread]
  exact ⟨Token.ne_nil_of_mem_placesOf hs, Token.covers_of_mem_placesOf hs⟩

/-- A statement has duplicates to report exactly if a name stands in it twice. -/
theorem duplicates_eq_nil_iff (h : ∀ p ∈ first :: more, p.Valid (InputName minLength))
    (hline : line.toList = forwarding first more) :
    Forwarding.duplicates (Token.ofLine line) (nameList 12 first more) = [] ↔
      ((nameList 12 first more).names.map Name.text).Nodup := by
  rw [← NameList.repeated_eq_nil_iff, Forwarding.duplicates, List.flatMap_eq_nil_iff]
  refine ⟨fun hno => ?_, fun hnil name hname => ?_⟩
  · apply List.eq_nil_iff_forall_not_mem.2
    intro name hname
    obtain ⟨n, hn, rfl⟩ := NameList.mem_distinct.1 (List.mem_filter.1 hname).1
    have hstart := mem_startsOf_names h hn
    have hplaces := hno n.text hname
    rw [inside_forwarding h hline, List.map_eq_nil_iff, Token.placesOf,
      List.map_eq_nil_iff] at hplaces
    rw [hplaces] at hstart
    cases hstart
  · rw [hnil] at hname
    cases hname

/-- All findings of a Forwarding statement are in place. -/
theorem marks_forwarding (h : ∀ p ∈ first :: more, p.Valid (OptionalName minLength))
    (hline : line.toList = forwarding first more) {f : Finding}
    (hf : f ∈ (Forwarding.analyze (Token.ofLine line) ⟨nameList 12 first more⟩).findings) :
    f.Marks line.toList := by
  have hne : line.toList ≠ [] := by
    intro hnil
    rw [hline] at hnil
    cases hnil
  have hcheck := Forwarding.checked_analyze (Token.ofLine line) ⟨nameList 12 first more⟩
  generalize Forwarding.analyze (Token.ofLine line) ⟨nameList 12 first more⟩ = analysis at hcheck hf
  cases hcheck with
  | unnamed =>
    obtain rfl := List.mem_singleton.1 hf
    exact ⟨hne, rfl⟩
  | missing all any =>
    obtain rfl := List.mem_singleton.1 hf
    obtain ⟨s, hs, hblamed⟩ := NameList.blamedComma_mem any all
    refine ⟨List.cons_ne_nil _ _, s, hblamed, ?_⟩
    rw [hline]
    exact (standsIn_forwarding first more).commas s hs
  | repeated any =>
    have hnames := (NameList.inputNames_iff 12).2 ⟨h, any⟩
    obtain ⟨name, -, hf⟩ := List.mem_flatMap.1 hf
    obtain ⟨s, hs, rfl⟩ := List.mem_map.1 hf
    have hplace := places_names hnames hline hs
    exact ⟨hplace.1, s, rfl, hplace.2⟩
  | names any =>
    have hnames := (NameList.inputNames_iff 12).2 ⟨h, any⟩
    obtain ⟨name, hname, rfl⟩ := List.mem_map.1 hf
    obtain ⟨n, hn, rfl⟩ := NameList.mem_distinct.1 hname
    obtain ⟨s, hs⟩ := Token.firstPlaceOf_of_mem (mem_startsOf_names hnames hn)
    rw [← inside_forwarding hnames hline] at hs
    have hplace := places_names hnames hline (List.mem_of_mem_head? hs)
    exact ⟨hplace.1, s, hs, hplace.2⟩

end Layout

/-! ## Lines -/

/-- Every finding of a line is in place. -/
theorem Validator.marks_analyze (v : Validator) (line : String) {f : Finding}
    (hf : f ∈ (v.analyze line).findings) : f.Marks line.toList := by
  have hne : ∀ {form : LineForm}, LineForm.ofLine line = form → form ≠ .blank →
      line.toList ≠ [] := by
    intro form hform hb hnil
    have hempty : line = "" := String.toList_inj.1 hnil
    rw [hempty] at hform
    exact hb hform.symm
  have h := v.checked_analyze line
  generalize v.analyze line = analysis at h hf
  cases h with
  | blank => cases hf
  | comment => cases hf
  | unknown form | noForwarding form | noAssignment form =>
    obtain rfl := List.mem_singleton.1 hf
    exact ⟨hne form nofun, rfl⟩
  | forwarding form s parts =>
    obtain ⟨first, more, hps, hline, rfl⟩ := Forwarding.parse?_eq_some_iff.1 parts
    exact Layout.marks_forwarding hps hline hf
  | assignment form a parts =>
    obtain ⟨l, hl, hline, rfl⟩ := Assignment.parse?_eq_some_iff.1 parts
    exact Layout.Assignment.marks_analyze hl hline hf

end LabelFlow
