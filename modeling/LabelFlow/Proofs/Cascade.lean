import LabelFlow.Proofs.Consultation
import LabelFlow.Proofs.Discipline

/-!
# The cascade of a Forwarding statement

A Forwarding statement is checked by what is read of it alone: `Forwarding.cascade` says which of
its names and commas are reported, each at its own place. `forwarding_cascade`: the report of a text
has just that for the line, although it looks for the names in the text again.
-/

set_option autoImplicit false

namespace LabelFlow

open Text Layout

/-- The comma beside the name with an index: after the first name of all, before any other. -/
def NameList.commaBeside (l : NameList) (k : Nat) : Option Span :=
  if k = 0 then l.commas[0]? else l.commas[k - 1]?

namespace Forwarding

/-- What is wrong with the names of a statement on a node with the given inputs: all are missing, or
one is, or some are repeated, or some are not available. -/
def cascade (available : List String) (f : Forwarding) : List Finding :=
  let names := f.inputs.names
  if names.all Name.isAbsent then [.wholeLine .forwardWithoutInputs]
  else
    match names.findIdx? Name.isAbsent with
    | some k => [⟨.trailingComma, f.inputs.commaBeside k⟩]
    | none =>
      if f.inputs.repeated = [] then
        (names.filter fun n => !available.contains n.text).map fun n =>
          ⟨.unknownInput n.text, some n.span⟩
      else
        f.inputs.repeated.flatMap fun text =>
          (Name.withText names text).map fun n => ⟨.duplicateInput text, some n.span⟩

end Forwarding

/-! ## Missing names -/

namespace NameList

variable {l : NameList}

/-- The first pair whose name is missing, by its index. -/
theorem find?_more {more : List (Span × Name)} {k : Nat}
    (h : (more.map Prod.snd).findIdx? Name.isAbsent = some k) :
    (more.find? fun e => e.2.isAbsent).map Prod.fst = (more.map Prod.fst)[k]? := by
  induction more generalizing k with
  | nil => cases h
  | cons e more ih =>
    rw [List.map_cons, List.findIdx?_cons] at h
    by_cases he : e.2.isAbsent = true
    · rw [if_pos he] at h
      cases h
      rw [List.find?_cons_of_pos (by simpa using he)]
      rfl
    · rw [if_neg he, Option.map_eq_some_iff] at h
      obtain ⟨k, hk, rfl⟩ := h
      rw [List.find?_cons_of_neg (by simpa using he), ih hk]
      rfl

/-- The comma to blame is the one beside the first missing name. -/
theorem blamedComma_eq {k : Nat} (h : l.names.findIdx? Name.isAbsent = some k) :
    l.blamedComma = l.commaBeside k := by
  rw [names, List.findIdx?_cons] at h
  unfold blamedComma
  by_cases hfirst : l.first.isAbsent = true
  · rw [if_pos hfirst] at h ⊢
    cases h
    exact List.head?_eq_getElem?
  · rw [if_neg hfirst, Option.map_eq_some_iff] at h
    obtain ⟨k, hk, rfl⟩ := h
    rw [if_neg hfirst, find?_more hk]
    rfl

theorem findIdx?_isSome_iff :
    (l.names.findIdx? Name.isAbsent).isSome = true ↔ l.names.any Name.isAbsent = true := by
  simp [List.findIdx?_isSome]

end NameList

/-! ## Repeated and unknown names -/

/-- If no text stands twice, the first name with the text of a name is that name. -/
theorem Name.head?_withText {ns : List Name} (h : (ns.map Name.text).Nodup) {n : Name}
    (hn : n ∈ ns) : (withText ns n.text).head? = some n := by
  induction ns with
  | nil => cases hn
  | cons m ns ih =>
    obtain ⟨hm, hns⟩ := List.nodup_cons.1 h
    rcases List.mem_cons.1 hn with rfl | hn
    · rw [withText, List.filter_cons_of_pos (by simp)]
      rfl
    · have hne : m.text ≠ n.text := fun he => hm (he ▸ List.mem_map_of_mem hn)
      rw [withText, List.filter_cons_of_neg (by simpa using hne)]
      exact ih hns hn

section
variable {minLength : Nat} {first : Item} {more : List Item} {line : String}

/-- The places of the repeated names are those of the names themselves. -/
theorem Layout.duplicates_eq (h : ∀ p ∈ first :: more, p.Valid (InputName minLength))
    (hline : line.toList = forwarding first more) :
    Forwarding.duplicates (Token.ofLine line) (nameList 12 first more) =
      (nameList 12 first more).repeated.flatMap fun text =>
        (Name.withText (nameList 12 first more).names text).map fun n =>
          ⟨.duplicateInput text, some n.span⟩ := by
  have hplaces := fun text => (finds_names h hline text).places
  simp only [Forwarding.duplicates, hplaces, List.map_map]
  rfl

/-- If no name is repeated, each is found where it stands. -/
theorem Layout.unknown_eq (h : ∀ p ∈ first :: more, p.Valid (InputName minLength))
    (hline : line.toList = forwarding first more)
    (hnodup : ((nameList 12 first more).names.map Name.text).Nodup) :
    ((nameList 12 first more).distinct.map fun name => Finding.mk (.unknownInput name)
        (Token.firstPlaceOf
          (Token.inside (Token.ofLine line) (nameList 12 first more).span) name)) =
      (nameList 12 first more).names.map fun n => ⟨.unknownInput n.text, some n.span⟩ := by
  rw [NameList.distinct, eraseDups_eq_self hnodup, List.map_map]
  refine List.map_congr_left fun n hn => ?_
  rw [Function.comp_apply, (finds_names h hline n.text).firstPlaceOf, Name.head?_withText hnodup hn]
  rfl

end

/-- What is found in a Forwarding statement is its cascade. -/
theorem Forwarding.found_analyze {minLength : Nat} {line : String} {f : Forwarding}
    (h : parse? minLength line = some f) (available : List String) :
    (f.analyze (Token.ofLine line)).found available = f.cascade available := by
  have hcheck := f.checked_analyze (Token.ofLine line)
  generalize f.analyze (Token.ofLine line) = analysis at hcheck
  obtain ⟨first, more, hps, hline, rfl⟩ := parse?_eq_some_iff.1 h
  -- where a name is there, the statement has all its names or a first one that is missing
  have hpresent : ¬ (nameList 12 first more).names.any Name.isAbsent = true →
      ¬ (nameList 12 first more).names.all Name.isAbsent = true ∧
        (nameList 12 first more).names.findIdx? Name.isAbsent = none := by
    intro any
    refine ⟨mt NameList.any_of_all any, ?_⟩
    rwa [← NameList.findIdx?_isSome_iff, Option.not_isSome_iff_eq_none] at any
  cases hcheck with
  | unnamed all =>
    rw [cascade, if_pos all]
    rfl
  | missing all any =>
    obtain ⟨k, hk⟩ := Option.isSome_iff_exists.1 (NameList.findIdx?_isSome_iff.2 any)
    rw [cascade, if_neg all]
    simp only [hk, NameList.blamedComma_eq hk]
    rfl
  | repeated any twice =>
    have hnames := (NameList.inputNames_iff 12).2 ⟨hps, any⟩
    have hrepeated : (nameList 12 first more).repeated ≠ [] := by
      rwa [ne_eq, NameList.repeated_eq_nil_iff, ← duplicates_eq_nil_iff hnames hline]
    rw [cascade, if_neg (hpresent any).1]
    simp only [(hpresent any).2, if_neg hrepeated]
    exact duplicates_eq hnames hline
  | names any once =>
    have hnames := (NameList.inputNames_iff 12).2 ⟨hps, any⟩
    have hnodup := (duplicates_eq_nil_iff hnames hline).1 once
    rw [cascade, if_neg (hpresent any).1]
    simp only [(hpresent any).2, if_pos (NameList.repeated_eq_nil_iff.2 hnodup)]
    simp only [Analysis.found, if_true, Analysis.standing]
    rw [unknown_eq hnames hline hnodup, List.filter_map]
    rfl

/-- Only a statement without any name is reported as a whole, all else has its place. -/
theorem Forwarding.span_cascade {available : List String} {f : Forwarding} {g : Finding}
    (hg : g ∈ f.cascade available) : g.span = none ↔ g.problem = .forwardWithoutInputs := by
  simp only [cascade] at hg
  split at hg
  · obtain rfl := List.mem_singleton.1 hg
    exact iff_of_true rfl rfl
  rename_i all
  split at hg
  · rename_i k hk
    have any := NameList.findIdx?_isSome_iff.1 (Option.isSome_of_eq_some hk)
    obtain ⟨c, -, hc⟩ := NameList.blamedComma_mem any all
    obtain rfl := List.mem_singleton.1 hg
    rw [← NameList.blamedComma_eq hk, hc]
    exact iff_of_false nofun nofun
  split at hg
  · obtain ⟨n, -, rfl⟩ := List.mem_map.1 hg
    exact iff_of_false nofun nofun
  · obtain ⟨text, -, hg⟩ := List.mem_flatMap.1 hg
    obtain ⟨n, -, rfl⟩ := List.mem_map.1 hg
    exact iff_of_false nofun nofun

/-- A Forwarding statement is reported as its cascade says. The diagnostics of its line are those of
the cascade, in order; all of them but that of a statement without any name have a place, that of a
name or a comma of the statement, and these stand in the line as they were read. -/
theorem forwarding_cascade (v : Validator) (text : String) (inputs : List String) :
    ∃ o, v.validate text (.node inputs) = .ok o ∧ ∀ i line f,
      (Text.lines text)[i]? = some line → Forwarding.parse? v.config.minNameLength line = some f →
        (o.diagnostics.filter fun d => d.line == i) =
          (f.cascade inputs).map (fun g => g.diagnostic i line) ∧
        (∀ g ∈ f.cascade inputs, g.span = none ↔ g.problem = .forwardWithoutInputs) ∧
        f.inputs.StandsIn line.toList := by
  obtain ⟨o, ho, hreports⟩ := v.exists_reports text inputs
  refine ⟨o, ho, fun i line f hline hread => ⟨?_, fun g => Forwarding.span_cascade, ?_⟩⟩
  · rw [hreports i line hline, Validator.report, Validator.analyze_forwarding hread,
      Forwarding.found_analyze hread]
  · obtain ⟨first, more, -, hchars, rfl⟩ := Forwarding.parse?_eq_some_iff.1 hread
    exact hchars ▸ standsIn_forwarding first more

/-- A repeated name is not found in a longer one, and a missing first name is blamed on the comma
after it. -/
theorem forwarding_cascade_longer : ∃ o,
    (Validator.standard none).validate
        "Forwarding(\x7ba|b,a,ab,a\x7d)\nForwarding(\x7b ,a\x7d)" (.node []) = .ok o ∧
      (o.diagnostics.filter fun d => d.line == 0).map (fun d => (d.id, d.colStart, d.colEnd)) =
        [("BHV2001", some 16, some 17), ("BHV2001", some 21, some 22)] ∧
      (o.diagnostics.filter fun d => d.line == 1).map (fun d => (d.id, d.colStart, d.colEnd)) =
        [("BHV1103", some 13, some 14)] := by
  obtain ⟨o, ho, hlines⟩ := forwarding_cascade (.standard none)
    "Forwarding(\x7ba|b,a,ab,a\x7d)\nForwarding(\x7b ,a\x7d)" []
  refine ⟨o, ho, ?_, ?_⟩
  · rw [(hlines 0 _ _ rfl rfl).1]
    decide
  · rw [(hlines 1 _ _ rfl rfl).1]
    decide

end LabelFlow
