import LabelFlow.Proofs.Unambiguity

/-!
# Places in Assignment statements

The value of a layout stands in the line that the layout writes: every name covers its own text, and
the two regions of the statement cover what they are to run over
(`Layout.Assignment.covers_names`, `covers_inputSpan`, `covers_labelSpan`). With the unambiguity of
layouts, `assignment_parse_exact` says what reading a line gives.
-/

set_option autoImplicit false

namespace LabelFlow

namespace OutputLabel

/-- The names of a label that are there, in order. -/
def names (l : OutputLabel) : List Name := l.labelType :: (l.value.toList ++ l.extra)

/-- The texts of the type, the value and the further segments. -/
def texts (l : OutputLabel) : String × Option String × List String :=
  (l.labelType.text, l.value.map Name.text, l.extra.map Name.text)

end OutputLabel

/-- All names of a statement, in order. -/
def Assignment.names (a : Assignment) : List Name :=
  a.inputs ++ a.term :: a.outputs.flatMap OutputLabel.names

/-! ## Ends of a text -/

section
variable {α : Type} {P : α → Prop} {a b : List α}

theorem forall_getLast?_append (ha : ∀ c ∈ a.getLast?, P c) (hb : ∀ c ∈ b.getLast?, P c) :
    ∀ c ∈ (a ++ b).getLast?, P c := by
  intro c hc
  rcases List.eq_nil_or_concat b with rfl | ⟨b, d, rfl⟩
  · rw [List.append_nil] at hc
    exact ha c hc
  · rw [List.concat_eq_append] at hc hb
    exact hb c (by simpa using hc)

theorem forall_head?_append (ha : ∀ c ∈ a.head?, P c) (hb : ∀ c ∈ b.head?, P c) :
    ∀ c ∈ (a ++ b).head?, P c := by
  cases a with
  | nil => exact hb
  | cons d a => exact ha

end

theorem Text.not_isNamePart_of_isBlank {c : Char} (h : isBlank c = true) :
    isNamePart c = false := by
  rw [← Bool.not_eq_true, isNamePart, Bool.or_eq_true, beq_iff_eq]
  intro hc
  rw [Kind.not_blank_of_identPart hc] at h
  cases h

theorem Text.not_isWord_of_not_isNamePart {c : Char} (h : isNamePart c = false) :
    isWord c = false := by
  rw [isNamePart, Bool.or_eq_false_iff] at h
  exact h.1

theorem Text.Identifier.isNamePart {cs : List Char} (h : Identifier cs) :
    ∀ c ∈ cs, Text.isNamePart c = true := by
  intro c hc
  rw [Text.isNamePart, Bool.or_eq_true, beq_iff_eq]
  exact h.forall_mem c hc

open Layout

namespace Layout

/-! ## Lists and paths -/

theorem covers_spelled (a cs b : List Char) :
    (Name.spelled (Text.width a) cs).span.Covers (a ++ (cs ++ b)) cs :=
  ⟨a, b, (List.append_assoc ..).symm, rfl⟩

/-- No part of a list goes on with the name in front of it, and no name goes on in it. -/
structure Bounded (a b : List Char) : Prop where
  before : ∀ c ∈ a.getLast?, Text.isNamePart c = false
  after : ∀ c ∈ b.head?, Text.isNamePart c = false

namespace Listing

variable {α β : Type} {written : α → List Char} {read : Nat → α → β}

/-- A value of a list is read from a part of the list, which stands between commas, at the place of
its core. -/
theorem exists_of_mem_values {l : Listing α} {offset : Nat} {v : β}
    (h : v ∈ l.values written read offset) : ∃ p ∈ l.padded, ∃ a b,
      l.chars written = a ++ (p.chars written ++ b) ∧ (∀ c ∈ a.getLast?, c = ',') ∧
        (∀ c ∈ b.head?, c = ',') ∧
          v = read (offset + Text.width a + Text.width p.before) p.core := by
  cases l with
  | blank cs => cases h
  | parts first more =>
    rcases List.mem_cons.1 h with rfl | h
    · exact ⟨first, List.mem_cons_self, [], trailing written more, rfl, nofun,
        fun _ => Text.head?_flatMap_cons, rfl⟩
    · obtain ⟨e, he, rfl⟩ := List.mem_map.1 h
      obtain ⟨hmem, a, b, hab, hb, ho⟩ := Text.exists_of_mem_placed (rfl : ','.utf8Size = 1) he
      refine ⟨e.2, List.mem_cons_of_mem _ hmem, first.chars written ++ (a ++ [',']), b, ?_, ?_, hb,
        ?_⟩
      · rw [chars, trailing, hab]
        simp
      · intro c hc
        simpa [eq_comm] using hc
      · rw [ho, Text.width_append, Text.width_append, Text.width_cons, Text.width_nil,
          show ','.utf8Size = 1 from rfl]
        congr 1
        omega

/-- The core of a part of a list in braces stands between blanks, commas and braces. -/
theorem exists_of_mem_braced {ok : α → Prop} {l : Listing α} (hl : l.Valid ok) {offset : Nat}
    {v : β} (h : v ∈ l.values written read (offset + 1)) : ∃ x a b, ok x ∧
      '\x7b' :: (l.chars written ++ ['\x7d']) = a ++ (written x ++ b) ∧ Bounded a b ∧
        v = read (offset + Text.width a) x := by
  obtain ⟨p, hp, x, y, hxy, hx, hy, rfl⟩ := exists_of_mem_values h
  have hvalid : p.Valid ok := by
    cases l with
    | blank cs => cases hp
    | parts first more => exact hl p hp
  have hcomma : ∀ {c : Char}, c = ',' → Text.isNamePart c = false := by
    intro c hc
    rw [hc]
    rfl
  refine ⟨p.core, '\x7b' :: (x ++ p.before), p.after ++ (y ++ ['\x7d']), hvalid.core, ?_,
    ⟨?_, ?_⟩, ?_⟩
  · rw [hxy, Padded.chars]
    simp
  · refine forall_getLast?_append (a := ['\x7b']) (by simp; rfl) (forall_getLast?_append ?_ ?_)
    · exact fun c hc => hcomma (hx c hc)
    · exact fun c hc => Text.not_isNamePart_of_isBlank (hvalid.before c (List.mem_of_getLast? hc))
  · refine forall_head?_append ?_ (forall_head?_append ?_ ?_)
    · exact fun c hc => Text.not_isNamePart_of_isBlank (hvalid.after c (List.mem_of_head? hc))
    · exact fun c hc => hcomma (hy c hc)
    · simp; rfl
  · rw [Text.width_cons, Text.width_append, show '\x7b'.utf8Size = 1 from rfl]
    congr 1
    omega

/-- What is read from a part at any place is read from the parts in order. -/
theorem map_values {γ : Type} {f : β → γ} {g : α → γ} (h : ∀ offset x, f (read offset x) = g x)
    (l : Listing α) (offset : Nat) :
    (l.values written read offset).map f = l.padded.map fun p => g p.core := by
  cases l with
  | blank cs => rfl
  | parts first more =>
    have hmore := congrArg (List.map fun p => g p.core)
      (Text.placed_map_snd (Padded.chars written)
        (offset + Text.width (first.chars written)) more)
    rw [values, padded, List.map_cons, List.map_cons, h, List.map_map, ← hmore, List.map_map]
    exact congrArg _ (List.map_congr_left fun e _ => h _ e.2.core)

end Listing

namespace Path

/-- The texts of a path; an absent value is none. -/
def texts (p : Path) : String × Option String × List String :=
  (.ofList p.labelType, if p.value = [] then none else some (.ofList p.value),
    p.extra.map .ofList)

theorem mem_names {offset : Nat} {segments : List (List Char)} {n : Name}
    (h : n ∈ names offset segments) : ∃ w ∈ segments, ∃ a b,
      segments.flatMap ('.' :: ·) = a ++ '.' :: (w ++ b) ∧
        n = .spelled (offset + Text.width a + 1) w := by
  obtain ⟨e, he, rfl⟩ := List.mem_map.1 h
  obtain ⟨hmem, a, b, hab, -, ho⟩ := Text.exists_of_mem_placed (rfl : '.'.utf8Size = 1) he
  exact ⟨e.2, hmem, a, b, hab, by rw [ho]⟩

theorem texts_label (offset : Nat) (p : Path) : (p.label offset).texts = p.texts := by
  have hextra := congrArg (List.map String.ofList) (Text.placed_map_snd id
    (offset + Text.width p.labelType + 1 + Text.width p.value) p.extra)
  rw [List.map_map] at hextra
  rw [OutputLabel.texts, texts, label, names, List.map_map, ← hextra]
  refine congrArg _ (congrArg (fun v => (v, _)) ?_)
  split <;> rfl

/-- A name of a label is a segment of its path at its place. -/
theorem exists_of_mem_label {p : Path} {offset : Nat} {n : Name}
    (h : n ∈ (p.label offset).names) : ∃ w a b,
      p.chars = a ++ (w ++ b) ∧ n = .spelled (offset + Text.width a) w := by
  simp only [OutputLabel.names, List.mem_cons, List.mem_append, Option.mem_toList] at h
  have hdot : '.'.utf8Size = 1 := rfl
  rcases h with rfl | hvalue | hextra
  · exact ⟨p.labelType, [], _, rfl, rfl⟩
  · refine ⟨p.value, p.labelType ++ ['.'], p.extra.flatMap ('.' :: ·), ?_, ?_⟩
    · simp [chars]
    · simp only [label] at hvalue
      split at hvalue
      · cases hvalue
      · cases hvalue
        simp [hdot, Nat.add_assoc]
  · obtain ⟨w, -, a, b, hab, rfl⟩ := mem_names hextra
    refine ⟨w, p.labelType ++ '.' :: (p.value ++ (a ++ ['.'])), b, ?_, ?_⟩
    · rw [chars, List.flatMap_cons, hab]
      simp
    · congr 1
      simp only [Text.width_append, Text.width_cons, Text.width_nil, hdot]
      omega

end Path

/-! ## Regions -/

namespace Assignment

/-- The inputs with their braces. -/
def inputRegion (a : Assignment) : List Char := '\x7b' :: (a.inputs.chars id ++ ['\x7d'])

/-- The outputs with their braces. -/
def outputRegion (a : Assignment) : List Char := '\x7b' :: (a.outputs.chars Path.chars ++ ['\x7d'])

/-- The term and the outputs, up to the brace that closes them. -/
def labelRegion (a : Assignment) : List Char := a.term ++ ';' :: (a.parens₃ ++ a.outputRegion)

/-- What stands before the inputs. -/
def beforeInputs (a : Assignment) : List Char := "Assignment(".toList ++ a.parens₁

/-- What stands between the inputs and the term. -/
def afterInputs (a : Assignment) : List Char := a.parens₂ ++ [';']

/-- What stands before the term. -/
def beforeLabels (a : Assignment) : List Char := a.beforeInputs ++ (a.inputRegion ++ a.afterInputs)

theorem width_beforeInputs (a : Assignment) : Text.width a.beforeInputs = a.inputsOpen :=
  Text.width_append ..

theorem width_inputRegion (a : Assignment) :
    a.inputsOpen + Text.width a.inputRegion = a.inputsClose + 1 := by
  simp only [inputRegion, Text.width_cons, Text.width_append, Text.width_nil, inputsClose,
    show '\x7b'.utf8Size = 1 from rfl, show '\x7d'.utf8Size = 1 from rfl]
  omega

theorem width_beforeLabels (a : Assignment) : Text.width a.beforeLabels = a.termStart := by
  have h := a.width_inputRegion
  simp only [beforeLabels, afterInputs, Text.width_append, width_beforeInputs, Text.width_cons,
    Text.width_nil, termStart, show ';'.utf8Size = 1 from rfl]
  omega

theorem width_labelRegion (a : Assignment) :
    a.termStart + Text.width a.labelRegion = a.outputsClose + 1 := by
  simp only [labelRegion, outputRegion, Text.width_cons, Text.width_append, Text.width_nil,
    outputsClose, outputsOpen, termStop, show '\x7b'.utf8Size = 1 from rfl,
    show '\x7d'.utf8Size = 1 from rfl, show ';'.utf8Size = 1 from rfl]
  omega

theorem chars_eq_inputs (a : Assignment) : a.chars =
    a.beforeInputs ++ (a.inputRegion ++ (a.afterInputs ++ (a.labelRegion ++ a.parens₄))) := by
  have h : ∀ keyword : List Char,
      keyword ++ (a.parens₁ ++ '\x7b' :: (a.inputs.chars id ++ '\x7d' ::
        (a.parens₂ ++ ';' :: (a.term ++ ';' ::
          (a.parens₃ ++ '\x7b' :: (a.outputs.chars Path.chars ++ '\x7d' :: a.parens₄)))))) =
      (keyword ++ a.parens₁) ++
        (a.inputRegion ++ (a.afterInputs ++ (a.labelRegion ++ a.parens₄))) :=
    fun keyword => by simp [inputRegion, afterInputs, labelRegion, outputRegion]
  exact h "Assignment(".toList

theorem chars_eq_labels (a : Assignment) :
    a.chars = a.beforeLabels ++ (a.labelRegion ++ a.parens₄) := by
  rw [chars_eq_inputs, beforeLabels, List.append_assoc, List.append_assoc]

theorem chars_eq_term (a : Assignment) :
    a.chars = a.beforeLabels ++ (a.term ++ ';' :: (a.parens₃ ++ a.outputRegion ++ a.parens₄)) := by
  rw [chars_eq_labels, labelRegion, List.append_assoc]
  rfl

/-- A region covers its text. -/
theorem covers_region {before region after : List Char} {start stop : Nat}
    (hstart : Text.width before = start) (hstop : start + Text.width region = stop) :
    Span.Covers ⟨start, stop⟩ (before ++ (region ++ after)) region :=
  ⟨before, after, (List.append_assoc ..).symm, by rw [← hstop, ← hstart]⟩

theorem covers_inputSpan (a : Assignment) : a.value.inputSpan.Covers a.chars a.inputRegion := by
  rw [chars_eq_inputs]
  exact covers_region a.width_beforeInputs a.width_inputRegion

theorem covers_labelSpan (a : Assignment) : a.value.labelSpan.Covers a.chars a.labelRegion := by
  rw [chars_eq_labels]
  exact covers_region a.width_beforeLabels a.width_labelRegion

theorem covers_term (a : Assignment) : a.value.term.span.Covers a.chars a.term := by
  rw [chars_eq_term]
  exact covers_region a.width_beforeLabels rfl

/-! ## Names -/

variable {minLength : Nat} {a : Assignment}

/-- An input stands in the region of the inputs. -/
theorem exists_of_mem_inputs (ha : a.Valid minLength) {n : Name} (h : n ∈ a.value.inputs) :
    ∃ w x y, InputName minLength w ∧ a.inputRegion = x ++ (w ++ y) ∧ Bounded x y ∧
      n = .spelled (a.inputsOpen + Text.width x) w :=
  Listing.exists_of_mem_braced ha.inputs h

/-- An output label stands in the region of the labels. -/
theorem exists_of_mem_outputs (ha : a.Valid minLength) {o : OutputLabel}
    (h : o ∈ a.value.outputs) : ∃ (p : Path) (x y : List Char), p.Valid ∧
      a.labelRegion = x ++ (p.chars ++ y) ∧ Bounded x y ∧
        o = p.label (a.termStart + Text.width x) := by
  obtain ⟨p, x, y, hp, hxy, hbound, rfl⟩ := Listing.exists_of_mem_braced ha.outputs h
  refine ⟨p, (a.term ++ [';']) ++ a.parens₃ ++ x, y, hp, ?_, ⟨?_, hbound.after⟩, ?_⟩
  · rw [labelRegion, outputRegion, hxy]
    simp
  · refine forall_getLast?_append (forall_getLast?_append ?_ fun c hc => ?_) hbound.before
    · simp
      rfl
    · obtain rfl | rfl := ha.parens₃ c (List.mem_of_getLast? hc) <;> rfl
  · congr 1
    simp only [Text.width_append, Text.width_cons, Text.width_nil, outputsOpen, termStop,
      show ';'.utf8Size = 1 from rfl]
    omega

/-- Every name of the statement that a layout stands for covers its own text. -/
theorem covers_names (ha : a.Valid minLength) {n : Name} (h : n ∈ a.value.names) :
    n.span.Covers a.chars n.text.toList := by
  rcases List.mem_append.1 h with h | h
  · obtain ⟨w, x, y, -, hxy, -, rfl⟩ := exists_of_mem_inputs ha h
    rw [chars_eq_inputs, hxy, ← width_beforeInputs, ← Text.width_append, Name.text_spelled,
      String.toList_ofList]
    simpa using covers_spelled (a.beforeInputs ++ x) w
      (y ++ (a.afterInputs ++ (a.labelRegion ++ a.parens₄)))
  rcases List.mem_cons.1 h with rfl | h
  · show a.value.term.span.Covers a.chars (String.ofList a.term).toList
    rw [String.toList_ofList]
    exact covers_term a
  · obtain ⟨o, ho, h⟩ := List.mem_flatMap.1 h
    obtain ⟨p, x, y, -, hxy, -, rfl⟩ := exists_of_mem_outputs ha ho
    obtain ⟨w, u, v, huv, rfl⟩ := Path.exists_of_mem_label h
    rw [chars_eq_labels, hxy, huv, ← width_beforeLabels, ← Text.width_append, ← Text.width_append,
      Name.text_spelled, String.toList_ofList]
    simpa using covers_spelled (a.beforeLabels ++ x ++ u) w (v ++ (y ++ a.parens₄))

theorem text_inputs (a : Assignment) :
    a.value.inputs.map Name.text = a.inputs.padded.map fun p => .ofList p.core :=
  Listing.map_values (f := Name.text) (g := .ofList) Name.text_spelled a.inputs _

theorem texts_outputs (a : Assignment) :
    a.value.outputs.map OutputLabel.texts = a.outputs.padded.map fun p => p.core.texts :=
  Listing.map_values Path.texts_label a.outputs _

end Assignment

end Layout

/-- Reading an Assignment statement is exact: a line is read exactly if it is the layout of one, it
is so in one way, and what is read are the inputs, the term and the output labels of the layout, in
order, each name at its place. -/
theorem assignment_parse_exact (minLength : Nat) (line : String) :
    ((Assignment.parse? minLength line).isSome = true ↔
      ∃ l : Layout.Assignment, l.Valid minLength ∧ line.toList = l.chars) ∧
    ∀ l : Layout.Assignment, l.Valid minLength → line.toList = l.chars →
      (∀ l' : Layout.Assignment, l'.Valid minLength → line.toList = l'.chars → l' = l) ∧
      ∃ a, Assignment.parse? minLength line = some a ∧
        a.inputs.map Name.text = l.inputs.padded.map (fun p => .ofList p.core) ∧
        a.term.text = .ofList l.term ∧
        a.outputs.map OutputLabel.texts = l.outputs.padded.map (fun p => p.core.texts) ∧
        (∀ n ∈ a.names, n.span.Covers line.toList n.text.toList) ∧
        a.inputSpan.Covers line.toList l.inputRegion ∧
        a.labelSpan.Covers line.toList l.labelRegion ∧ a = l.value := by
  refine ⟨?_, fun l hl hline => ⟨fun l' hl' hline' => ?_, ?_⟩⟩
  · rw [Option.isSome_iff_exists]
    simp only [Assignment.parse?_eq_some_iff]
    exact ⟨fun ⟨_, l, hl, hline, _⟩ => ⟨l, hl, hline⟩,
      fun ⟨l, hl, hline⟩ => ⟨l.value, l, hl, hline, rfl⟩⟩
  · exact Layout.Assignment.eq_of_chars hl' hl (hline'.symm.trans hline)
  · have hread := Assignment.parse?_layout hl hline
    rw [hline]
    exact ⟨l.value, hread, l.text_inputs, rfl, l.texts_outputs,
      fun n hn => Layout.Assignment.covers_names hl hn, l.covers_inputSpan, l.covers_labelSpan, rfl⟩

/-- Parentheses around the parts, a padded input, and a label without a value. -/
theorem assignment_parse_exact_nested :
    ∃ l : Layout.Assignment, l.Valid 1 ∧
      "Assignment((\x7b a\x7d);TRUE;\x7bT.,T.V.\x7d)".toList = l.chars ∧
      (Assignment.parse? 1 "Assignment((\x7b a\x7d);TRUE;\x7bT.,T.V.\x7d)").map
          (fun a => (a.inputs.map Name.text, a.outputs.map OutputLabel.texts)) =
        some (["a"], [("T", none, []), ("T", some "V", [""])]) := by
  obtain ⟨h, hparts⟩ := assignment_parse_exact 1 "Assignment((\x7b a\x7d);TRUE;\x7bT.,T.V.\x7d)"
  obtain ⟨l, hl, hline⟩ := h.1 (by decide)
  obtain ⟨-, a, ha, -⟩ := hparts l hl hline
  exact ⟨l, hl, hline, by decide⟩

end LabelFlow
