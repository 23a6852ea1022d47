import LabelFlow.Proofs.Concatenation
import LabelFlow.Proofs.Selection

/-!
# The least length of names

The least length of names cuts statements off: raising it makes the reader refuse a statement with a
shorter name, and changes nothing else that is read (`Forwarding.parse?_of_le`,
`Assignment.parse?_of_le`). A line is then reported as one that does not match its template
(`minNameLength_cuts_off`).
-/

set_option autoImplicit false

namespace LabelFlow

open Layout

/-- A name that is there, of fewer characters than asked for. -/
def Text.Short (minLength : Nat) (text : String) : Prop := text ≠ "" ∧ text.length < minLength

theorem Text.not_short_one (text : String) : ¬ Short 1 text := by
  rintro ⟨hne, hlt⟩
  exact hne (String.length_eq_zero_iff.1 (Nat.lt_one_iff.1 hlt))

/-! ## Reading with two least lengths -/

namespace Layout

variable {m n : Nat}

theorem inputName_of_le (h : m ≤ n) (cs : List Char) :
    InputName n cs ↔ InputName m cs ∧ ¬ Text.Short n (.ofList cs) := by
  rw [InputName, InputName, Text.Short, String.length_ofList]
  refine ⟨fun ⟨hid, hn⟩ => ?_, fun ⟨⟨hid, _⟩, hlong⟩ => ?_⟩
  · exact ⟨⟨hid, Nat.le_trans h hn⟩, fun hshort => Nat.not_lt.2 hn hshort.2⟩
  · have hne : String.ofList cs ≠ "" := fun he => hid.ne_nil (String.ofList_inj.1 he)
    exact ⟨hid, Nat.not_lt.1 fun hlt => hlong ⟨hne, hlt⟩⟩

theorem optionalName_of_le (h : m ≤ n) (cs : List Char) :
    OptionalName n cs ↔ OptionalName m cs ∧ ¬ Text.Short n (.ofList cs) := by
  rw [OptionalName, OptionalName, inputName_of_le h]
  by_cases hcs : cs = []
  · have habsent : ¬ Text.Short n (.ofList cs) := fun hshort => hshort.1 (hcs ▸ rfl)
    simp only [hcs, true_or, true_and, true_iff]
    exact hcs ▸ habsent
  · simp only [hcs, false_or]

/-- A condition on the cores of all parts is a condition beside the others. -/
theorem Padded.forall_valid_iff {α : Type} {ok ok' q : α → Prop} (h : ∀ x, ok' x ↔ ok x ∧ q x)
    (ps : List (Padded α)) : (∀ p ∈ ps, p.Valid ok') ↔
      (∀ p ∈ ps, p.Valid ok) ∧ ∀ p ∈ ps, q p.core := by
  refine ⟨fun hv => ⟨fun p hp => ?_, fun p hp => ((h _).1 (hv p hp).core).2⟩,
    fun ⟨hv, hq⟩ p hp => ?_⟩
  · exact ⟨(hv p hp).before, ((h _).1 (hv p hp).core).1, (hv p hp).after⟩
  · exact ⟨(hv p hp).before, (h _).2 ⟨(hv p hp).core, hq p hp⟩, (hv p hp).after⟩

theorem Listing.valid_iff {α : Type} {ok ok' q : α → Prop} (h : ∀ x, ok' x ↔ ok x ∧ q x)
    (l : Listing α) : l.Valid ok' ↔ l.Valid ok ∧ ∀ p ∈ l.padded, q p.core := by
  cases l with
  | blank cs => exact ⟨fun hv => ⟨hv, nofun⟩, And.left⟩
  | parts first more => exact Padded.forall_valid_iff h (first :: more)

theorem Assignment.valid_of_le (h : m ≤ n) {l : Layout.Assignment} : l.Valid n ↔
    l.Valid m ∧ ∀ p ∈ l.inputs.padded, ¬ Text.Short n (.ofList p.core) := by
  have hinputs := Listing.valid_iff (inputName_of_le h) l.inputs
  refine ⟨fun hl => ?_, fun ⟨hl, hlong⟩ => ?_⟩
  · obtain ⟨hvalid, hlong⟩ := hinputs.1 hl.inputs
    exact ⟨{ hl with inputs := hvalid }, hlong⟩
  · exact { hl with inputs := hinputs.2 ⟨hl.inputs, hlong⟩ }

end Layout

section
variable {m n : Nat} {line : String}

/-- What is read with a larger least length is what is read with a smaller one and has no name that
is too short. -/
theorem Forwarding.parse?_of_le (h : m ≤ n) {f : Forwarding} : parse? n line = some f ↔
    parse? m line = some f ∧ ∀ x ∈ f.inputs.names, ¬ Text.Short n x.text := by
  have hnames : ∀ first more, (∀ x ∈ (nameList 12 first more).names, ¬ Text.Short n x.text) ↔
      ∀ p ∈ first :: more, ¬ Text.Short n (.ofList p.core) := by
    intro first more
    rw [← List.forall_mem_map (P := fun text => ¬ Text.Short n text) (f := Name.text),
      NameList.text_nameList, List.forall_mem_map]
  have hvalid : ∀ ps : List Item, (∀ p ∈ ps, p.Valid (OptionalName n)) ↔
      (∀ p ∈ ps, p.Valid (OptionalName m)) ∧ ∀ p ∈ ps, ¬ Text.Short n (.ofList p.core) :=
    Padded.forall_valid_iff (optionalName_of_le h)
  -- one layout serves both lengths, and what is read of it does not depend on them
  rw [parse?_eq_some_iff, parse?_eq_some_iff]
  refine ⟨fun ⟨first, more, hps, hline, hf⟩ => ?_, fun ⟨⟨first, more, hps, hline, hf⟩, hlong⟩ => ?_⟩
  · obtain ⟨hps, hlong⟩ := (hvalid _).1 hps
    refine ⟨⟨first, more, hps, hline, hf⟩, ?_⟩
    rw [hf]
    exact (hnames first more).2 hlong
  · rw [hf] at hlong
    exact ⟨first, more, (hvalid _).2 ⟨hps, (hnames first more).1 hlong⟩, hline, hf⟩

/-- What is read with a larger least length is what is read with a smaller one and has no name that
is too short. -/
theorem Assignment.parse?_of_le (h : m ≤ n) {a : Assignment} : parse? n line = some a ↔
    parse? m line = some a ∧ ∀ x ∈ a.inputs, ¬ Text.Short n x.text := by
  have hnames : ∀ l : Layout.Assignment, (∀ x ∈ l.value.inputs, ¬ Text.Short n x.text) ↔
      ∀ p ∈ l.inputs.padded, ¬ Text.Short n (.ofList p.core) := by
    intro l
    rw [← List.forall_mem_map (P := fun text => ¬ Text.Short n text) (f := Name.text),
      Layout.Assignment.text_inputs, List.forall_mem_map]
  rw [parse?_eq_some_iff, parse?_eq_some_iff]
  refine ⟨fun ⟨l, hl, hline, ha⟩ => ?_, fun ⟨⟨l, hl, hline, ha⟩, hlong⟩ => ?_⟩
  · obtain ⟨hl, hlong⟩ := (Layout.Assignment.valid_of_le h).1 hl
    refine ⟨⟨l, hl, hline, ha⟩, ?_⟩
    rw [ha]
    exact (hnames l).2 hlong
  · rw [ha] at hlong
    exact ⟨l, (Layout.Assignment.valid_of_le h).2 ⟨hl, (hnames l).1 hlong⟩, hline, ha⟩

end

/-! ## Lines -/

section
variable {α : Type} {a b : Option α} {long : α → Prop}
  (h : ∀ x, b = some x ↔ a = some x ∧ long x)
include h

/-- A cut-off that cuts nothing off changes nothing. -/
theorem eq_of_cut (hlong : ∀ x, a = some x → long x) : b = a :=
  Option.ext fun x => (h x).trans ⟨And.left, fun hx => ⟨hx, hlong x hx⟩⟩

/-- What is cut off is gone, since nothing takes its place. -/
theorem eq_none_of_cut {x : α} (hx : a = some x) (hshort : ¬ long x) : b = none := by
  refine Option.eq_none_iff_forall_ne_some.2 fun y hy => ?_
  obtain ⟨hy, hlong⟩ := (h y).1 hy
  obtain rfl := Option.some.inj (hx.symm.trans hy)
  exact hshort hlong

end

/-- The input names of a line that matches the template of its statement. -/
def LineForm.inputNames? (minLength : Nat) (line : String) : Option (List Name) :=
  match LineForm.ofLine line with
  | .forwarding => (Forwarding.parse? minLength line).map fun f => f.inputs.names
  | .assignment => (Assignment.parse? minLength line).map Assignment.inputs
  | .blank | .comment | .unknown => none

/-- The report that a line as a whole does not match the template of its statement. -/
inductive Diagnostic.Mismatch (line : String) : Diagnostic → Prop
  | forwarding (form : LineForm.ofLine line = .forwarding) :
      Mismatch line ⟨"BHV1101", .error, Problem.invalidForwarding.message, 0, some 0,
        some line.length, none⟩
  | assignment (form : LineForm.ofLine line = .assignment) :
      Mismatch line ⟨"BHV1201", .error, Problem.invalidAssignment.message, 0, some 0,
        some line.length, none⟩

namespace Validator

variable {m n : Nat} {line : String} (catalog : Option Catalog)

/-- A larger least length makes no difference to a line without names that are too short. -/
theorem analyze_of_le (h : m ≤ n) (hlong : ∀ names, LineForm.inputNames? m line = some names →
    ∀ x ∈ names, ¬ Text.Short n x.text) :
    (Validator.mk ⟨n⟩ catalog).analyze line = (Validator.mk ⟨m⟩ catalog).analyze line := by
  unfold LineForm.inputNames? at hlong
  unfold analyze
  cases hform : LineForm.ofLine line with
  | blank | comment | unknown => rfl
  | forwarding =>
    simp only [hform] at hlong
    have hparse := eq_of_cut (fun f => Forwarding.parse?_of_le h) fun f hf =>
      hlong _ (Option.map_eq_some_iff.2 ⟨f, hf, rfl⟩)
    simp only [hparse]
  | assignment =>
    simp only [hform] at hlong
    have hparse := eq_of_cut (fun a => Assignment.parse?_of_le h) fun a ha =>
      hlong _ (Option.map_eq_some_iff.2 ⟨a, ha, rfl⟩)
    simp only [hparse]

/-- A line with a name that is too short for the larger least length matches no template. -/
theorem analyze_of_short (h : m ≤ n) {names : List Name}
    (hnames : LineForm.inputNames? m line = some names)
    (hshort : ∃ x ∈ names, Text.Short n x.text) :
    ∃ p, (Validator.mk ⟨n⟩ catalog).analyze line = .stopAt [.wholeLine p] ∧
      Diagnostic.Mismatch line ((Finding.wholeLine p).diagnostic 0 line) := by
  obtain ⟨x, hx, hshort⟩ := hshort
  unfold LineForm.inputNames? at hnames
  unfold analyze
  cases hform : LineForm.ofLine line with
  | blank | comment | unknown =>
    simp only [hform] at hnames
    cases hnames
  | forwarding =>
    simp only [hform] at hnames
    obtain ⟨f, hf, rfl⟩ := Option.map_eq_some_iff.1 hnames
    have hparse := eq_none_of_cut (fun g => Forwarding.parse?_of_le h) hf
      fun hlong => hlong x hx hshort
    simp only [hparse]
    exact ⟨_, rfl, .forwarding hform⟩
  | assignment =>
    simp only [hform] at hnames
    obtain ⟨a, ha, rfl⟩ := Option.map_eq_some_iff.1 hnames
    have hparse := eq_none_of_cut (fun b => Assignment.parse?_of_le h) ha
      fun hlong => hlong x hx hshort
    simp only [hparse]
    exact ⟨_, rfl, .assignment hform⟩

/-- Validating a single line on a node reports the line. -/
theorem validate_line (v : Validator) (hline : '\n' ∉ line.toList) (inputs : List String) :
    v.validate line (.node inputs) =
      .ok ⟨v.report inputs 0 line, (v.analyze line).needsInputs.toNat⟩ := by
  rw [validate_node, asks, Text.lines_of_not_mem hline, List.any_cons, List.any_nil, Bool.or_false,
    List.zipIdx_singleton, List.flatMap_singleton]

end Validator

/-- The least length of names is a cut-off. A single line is validated with two of them, the second
one being at least the first. If the line matches no template with the first, both give the same; if
it matches and one of its names is too short for the second, the second gives the mismatch of the
line and nothing else; if none is, both give the same. A least length of nothing is one of a single
character. -/
theorem minNameLength_cuts_off (catalog : Option Catalog) :
    (∀ (line : String) (inputs : List String) (m n : Nat), '\n' ∉ line.toList → m ≤ n →
      ∃ o o', (Validator.mk ⟨m⟩ catalog).validate line (.node inputs) = .ok o ∧
        (Validator.mk ⟨n⟩ catalog).validate line (.node inputs) = .ok o' ∧
        (LineForm.inputNames? m line = none → o' = o) ∧
        ∀ names, LineForm.inputNames? m line = some names →
          ((∃ x ∈ names, x.text ≠ "" ∧ x.text.length < n) →
            ∃ d, o'.diagnostics = [d] ∧ d.Mismatch line) ∧
          ((∀ x ∈ names, ¬ (x.text ≠ "" ∧ x.text.length < n)) → o' = o)) ∧
    ∀ text owner, (Validator.mk ⟨0⟩ catalog).validate text owner =
      (Validator.mk ⟨1⟩ catalog).validate text owner := by
  refine ⟨fun line inputs m n hline h => ?_, fun text owner => ?_⟩
  · refine ⟨_, _, Validator.validate_line _ hline inputs, Validator.validate_line _ hline inputs,
      fun hnone => ?_, fun names hnames => ⟨fun hshort => ?_, fun hlong => ?_⟩⟩
    · have hanalyze := Validator.analyze_of_le catalog h fun names hnames => by
        rw [hnone] at hnames
        cases hnames
      rw [Validator.report, hanalyze, Validator.report]
    · obtain ⟨p, hanalyze, hmismatch⟩ := Validator.analyze_of_short catalog h hnames hshort
      refine ⟨_, ?_, hmismatch⟩
      rw [Validator.report, hanalyze]
      rfl
    · have hanalyze := Validator.analyze_of_le catalog h fun names' hnames' => by
        obtain rfl := Option.some.inj (hnames.symm.trans hnames')
        exact hlong
      rw [Validator.report, hanalyze, Validator.report]
  · refine (Validator.validate_congr (fun line => ?_) text owner).symm
    exact Validator.analyze_of_le catalog (Nat.zero_le 1) fun _ _ _ _ => Text.not_short_one _

/-- A missing name is never too short, the other one is for the largest word of 64 bits. -/
theorem minNameLength_cuts_off_missing : ∃ o o' d,
    (Validator.mk ⟨1⟩ none).validate "Forwarding(\x7ba|b,\x7d)" (.node []) = .ok o ∧
    (Validator.mk ⟨3⟩ none).validate "Forwarding(\x7ba|b,\x7d)" (.node []) = .ok o ∧
    o.diagnostics.map Diagnostic.id = ["BHV1103"] ∧
    (Validator.mk ⟨18446744073709551615⟩ none).validate "Forwarding(\x7ba|b,\x7d)" (.node []) =
      .ok o' ∧
    o'.diagnostics = [d] ∧ d.Mismatch "Forwarding(\x7ba|b,\x7d)" ∧ d.id = "BHV1101" := by
  obtain ⟨hcut, -⟩ := minNameLength_cuts_off none
  have hnames : LineForm.inputNames? 1 "Forwarding(\x7ba|b,\x7d)" =
      some [⟨"a|b", ⟨12, 15⟩⟩, ⟨"", ⟨16, 16⟩⟩] := by decide
  obtain ⟨o, o₃, ho, ho₃, -, hsame⟩ :=
    hcut "Forwarding(\x7ba|b,\x7d)" [] 1 3 (by decide) (by decide)
  obtain ⟨_, o', _, ho', _, hshort⟩ :=
    hcut "Forwarding(\x7ba|b,\x7d)" [] 1 (18446744073709551615) (by decide) (by decide)
  obtain rfl := (hsame _ hnames).2 (by decide)
  obtain ⟨d, hd, hmismatch⟩ := (hshort _ hnames).1 ⟨_, .head _, by decide, by decide⟩
  refine ⟨o₃, o', d, ho, ho₃, ?_, ho', hd, hmismatch, ?_⟩
  · cases ho
    rfl
  · cases hmismatch with
    | forwarding => rfl
    | assignment form => cases form

end LabelFlow
