import LabelFlow.Proofs.Places
import LabelFlow.Proofs.Search
import LabelFlow.Proofs.Symbols
import LabelFlow.Validation.Forwarding

/-!
# Finding the names of a statement

The tokens inside a region of an Assignment statement are those of its text, and every name of the
statement is found there at its own place: an input as a whole identifier, the type of a label in
front of a dot, a value behind one.
-/

set_option autoImplicit false

namespace LabelFlow

open Text

namespace Layout.Assignment

variable {minLength : Nat} {l : Assignment} {line : String}

/-! ## Tokens of the regions -/

theorem inside_inputs (h : line.toList = l.chars) :
    Token.inside (Token.ofLine line) l.value.inputSpan =
      Token.ofText l.inputsOpen l.inputRegion := by
  have hspan : l.value.inputSpan =
      ⟨width l.beforeInputs, width l.beforeInputs + width l.inputRegion⟩ := by
    rw [width_beforeInputs, width_inputRegion]
    rfl
  rw [Token.ofLine_eq, h, chars_eq_inputs, hspan, Token.inside_ofText (.of_head rfl),
    width_beforeInputs]
  exact .of_last (a := '\x7b' :: l.inputs.chars id) rfl

theorem apart_beforeLabels (l : Assignment) (cs : List Char) : Apart l.beforeLabels cs := by
  have h : l.beforeLabels = (l.beforeInputs ++ (l.inputRegion ++ l.parens₂)) ++ [';'] := by
    simp [beforeLabels, afterInputs]
  rw [h]
  exact .of_last rfl

theorem inside_labels (h : line.toList = l.chars) :
    Token.inside (Token.ofLine line) l.value.labelSpan =
      Token.ofText l.termStart l.labelRegion := by
  have hspan : l.value.labelSpan =
      ⟨width l.beforeLabels, width l.beforeLabels + width l.labelRegion⟩ := by
    rw [width_beforeLabels, width_labelRegion]
    rfl
  have hregion : l.labelRegion =
      (l.term ++ ';' :: (l.parens₃ ++ '\x7b' :: l.outputs.chars Path.chars)) ++ ['\x7d'] := by
    simp [labelRegion, outputRegion]
  have hend : Apart l.labelRegion l.parens₄ := by
    rw [hregion]
    exact .of_last rfl
  rw [Token.ofLine_eq, h, chars_eq_labels, hspan, Token.inside_ofText (apart_beforeLabels l _) hend,
    width_beforeLabels]

theorem inside_term (h : line.toList = l.chars) :
    Token.inside (Token.ofLine line) l.value.term.span = Token.ofText l.termStart l.term := by
  have hspan : l.value.term.span = ⟨width l.beforeLabels, width l.beforeLabels + width l.term⟩ := by
    rw [width_beforeLabels]
    rfl
  rw [Token.ofLine_eq, h, chars_eq_term, hspan,
    Token.inside_ofText (apart_beforeLabels l _) (.of_head rfl), width_beforeLabels]

theorem toList_term (l : Assignment) : l.value.term.text.toList = l.term := String.toList_ofList

/-! ## Finding names -/

/-- An input is found as a whole identifier. -/
theorem mem_startsOf_input (hl : l.Valid minLength) {n : Name} (h : n ∈ l.value.inputs) :
    n.span.start ∈ Token.startsOf (Token.ofText l.inputsOpen l.inputRegion) n.text .identifier := by
  obtain ⟨w, x, y, hw, hxy, hbound, rfl⟩ := exists_of_mem_inputs hl h
  rw [Token.mem_startsOf_identifier, Name.text_spelled, String.toList_ofList]
  exact ⟨hw.1.ne_nil, x, y, hxy, hw.1.isNamePart, hbound.before, hbound.after, rfl⟩

/-- The type of an output label is found in front of its dot. -/
theorem mem_startsOf_outputType (hl : l.Valid minLength) {o : OutputLabel}
    (h : o ∈ l.value.outputs) : o.labelType.span.start ∈
      Token.startsOf (Token.ofText l.termStart l.labelRegion) o.labelType.text .beforeDot := by
  obtain ⟨p, x, y, hp, hxy, hbound, rfl⟩ := exists_of_mem_outputs hl h
  rw [Token.mem_startsOf_beforeDot, Path.label, Name.text_spelled, String.toList_ofList]
  refine ⟨hp.labelType, x, p.value ++ (p.extra.flatMap ('.' :: ·) ++ y), ?_, ?_, rfl⟩
  · rw [hxy, Path.chars]
    simp
  · exact fun c hc => not_isWord_of_not_isNamePart (hbound.before c hc)

/-- The value of an output label is found behind its dot. -/
theorem mem_startsOf_outputValue (hl : l.Valid minLength) {o : OutputLabel} {v : Name}
    (h : o ∈ l.value.outputs) (hv : o.value = some v) : v.span.start ∈
      Token.startsOf (Token.ofText l.termStart l.labelRegion) v.text .afterDot := by
  obtain ⟨p, x, y, hp, hxy, hbound, rfl⟩ := exists_of_mem_outputs hl h
  simp only [Path.label] at hv
  split at hv
  · cases hv
  · rename_i hne
    cases hv
    rw [Token.mem_startsOf_afterDot, Name.text_spelled, String.toList_ofList]
    refine ⟨⟨hne, hp.segments _ List.mem_cons_self⟩, x ++ p.labelType,
      p.extra.flatMap ('.' :: ·) ++ y, ?_, ?_, ?_⟩
    · rw [hxy, Path.chars]
      simp
    · refine forall_head?_append (fun c hc => ?_) fun c hc =>
        not_isWord_of_not_isNamePart (hbound.after c hc)
      rw [Text.head?_flatMap_cons hc]
      rfl
    · rw [width_append, Name.spelled]
      simp only [Nat.add_assoc]

end Layout.Assignment

/-- A label access is three tokens of the term. -/
theorem Symbol.Units.exists_of_mem {ts : List Token} {as : List Access} {a : Access}
    (h : Units ts as) (ha : a ∈ as) : ∃ l t d v r, ts = l ++ t :: d :: v :: r ∧ t.kind = .word ∧
      d.kind = .dot ∧ v.kind = .word ∧ a = ⟨.ofToken t, .ofToken v⟩ := by
  induction h with
  | nil => cases ha
  | @single t ts as _ _ ih =>
    obtain ⟨l, t', d, v, r, rfl, h⟩ := ih ha
    exact ⟨t :: l, t', d, v, r, rfl, h⟩
  | @double t u ts as _ _ ih =>
    obtain ⟨l, t', d, v, r, rfl, h⟩ := ih ha
    exact ⟨t :: u :: l, t', d, v, r, rfl, h⟩
  | @literal t ts as _ _ _ ih =>
    obtain ⟨l, t', d, v, r, rfl, h⟩ := ih ha
    exact ⟨t :: l, t', d, v, r, rfl, h⟩
  | @access t d v ts as ht hd hv _ ih =>
    rcases List.mem_cons.1 ha with rfl | ha
    · exact ⟨[], t, d, v, ts, rfl, ht, hd, hv, rfl⟩
    · obtain ⟨l, t', d', v', r, rfl, h⟩ := ih ha
      exact ⟨t :: d :: v :: l, t', d', v', r, rfl, h⟩

/-- The type and the value of a label access are found among the tokens of the term, whatever
follows them. -/
theorem Symbol.Units.mem_startsOf {ts : List Token} {as : List Access} {a : Access}
    (h : Units ts as) (ha : a ∈ as) (after : List Token) :
    a.labelType.span.start ∈ Token.startsOf (ts ++ after) a.labelType.text .beforeDot ∧
      a.value.span.start ∈ Token.startsOf (ts ++ after) a.value.text .afterDot := by
  obtain ⟨l, t, d, v, r, rfl, ht, hd, hv, rfl⟩ := h.exists_of_mem ha
  have hfirst : (t, d) ∈ Token.neighbours ((l ++ t :: d :: v :: r) ++ after) :=
    Token.mem_neighbours_iff.2 ⟨l, v :: (r ++ after), by simp⟩
  have hsecond : (d, v) ∈ Token.neighbours ((l ++ t :: d :: v :: r) ++ after) :=
    Token.mem_neighbours_iff.2 ⟨l ++ [t], r ++ after, by simp⟩
  exact ⟨List.mem_filterMap.2 ⟨_, hfirst, if_pos ⟨ht, rfl, hd⟩⟩,
    List.mem_filterMap.2 ⟨_, hsecond, if_pos ⟨hd, hv, rfl⟩⟩⟩

/-! ## Forwarding -/

namespace Layout

/-- What stands from the first to the last name of a list. -/
def spread (first : Item) : List Item → List Char
  | [] => first.core
  | p :: more => first.core ++ (first.after ++ ',' :: (p.before ++ spread p more))

/-- The blanks after the last name of a list. -/
def lastAfter (first : Item) : List Item → List Char
  | [] => first.after
  | p :: more => lastAfter p more

theorem chars_eq_spread (first : Item) (more : List Item) :
    first.chars id ++ trailing id more =
      first.before ++ (spread first more ++ lastAfter first more) := by
  induction more generalizing first with
  | nil => simp [Padded.chars, trailing, spread, lastAfter]
  | cons p more ih =>
    have h : first.chars id ++ trailing id (p :: more) = first.before ++
        (first.core ++ (first.after ++ ',' :: (p.chars id ++ trailing id more))) := by
      simp [Padded.chars, trailing]
    rw [h, ih, spread, lastAfter]
    simp

theorem names_nameList_cons (offset : Nat) (first p : Item) (more : List Item) :
    (nameList offset first (p :: more)).names = Item.name offset first ::
      (nameList (offset + width (first.chars id) + 1) p more).names := by
  rw [NameList.names_nameList, NameList.names_nameList]
  rfl

section
variable {minLength : Nat} {first : Item} {more : List Item}

/-- A name of a list stands between blanks and commas. -/
theorem exists_of_mem_names (h : ∀ p ∈ first :: more, p.Valid (InputName minLength)) {offset : Nat}
    {n : Name} (hn : n ∈ (nameList offset first more).names) :
    ∃ w a b, InputName minLength w ∧ spread first more = a ++ (w ++ b) ∧ Bounded a b ∧
      n = .spelled (offset + width first.before + width a) w := by
  induction more generalizing first offset with
  | nil =>
    obtain rfl := List.mem_singleton.1 hn
    have hfirst := h first List.mem_cons_self
    exact ⟨first.core, [], [], hfirst.core, (List.append_nil _).symm, ⟨nofun, nofun⟩,
      NameList.name_of_inputName hfirst offset⟩
  | cons p more ih =>
    obtain ⟨hfirst, hmore⟩ := List.forall_mem_cons.1 h
    have hafter : ∀ c ∈ (first.after ++ ',' :: (p.before ++ spread p more)).head?,
        isNamePart c = false := by
      refine forall_head?_append (fun c hc => ?_) fun c hc => ?_
      · exact not_isNamePart_of_isBlank (hfirst.after c (List.mem_of_head? hc))
      · cases hc
        rfl
    rw [names_nameList_cons] at hn
    rcases List.mem_cons.1 hn with rfl | hn
    · exact ⟨first.core, [], _, hfirst.core, rfl, ⟨nofun, hafter⟩,
        NameList.name_of_inputName hfirst offset⟩
    · obtain ⟨w, a, b, hw, hab, hbound, rfl⟩ := ih hmore hn
      refine ⟨w, (first.core ++ (first.after ++ [','])) ++ p.before ++ a, b, hw, ?_,
        ⟨?_, hbound.after⟩, ?_⟩
      · rw [spread, hab]
        simp
      · refine forall_getLast?_append (forall_getLast?_append ?_ fun c hc => ?_) hbound.before
        · simp
          rfl
        · exact not_isNamePart_of_isBlank ((hmore p List.mem_cons_self).before c
            (List.mem_of_getLast? hc))
      · congr 1
        simp only [Padded.chars, id, width_append, width_cons, width_nil,
          show ','.utf8Size = 1 from rfl]
        omega

/-- Covering the names one by one ends at the last one. -/
theorem foldl_cover (h : ∀ p ∈ first :: more, p.Valid (InputName minLength)) {offset : Nat}
    {s : Span} (hstart : s.start ≤ offset + width first.before)
    (hstop : s.stop = offset + width first.before + width first.core) :
    (nameList offset first more).more.foldl (fun s e => s.cover e.2.span) s =
      ⟨s.start, offset + width first.before + width (spread first more)⟩ := by
  induction more generalizing first offset s with
  | nil =>
    rw [spread, ← hstop]
    rfl
  | cons p more ih =>
    obtain ⟨-, hmore⟩ := List.forall_mem_cons.1 h
    have hp := NameList.name_of_inputName (hmore p List.mem_cons_self)
      (offset + width (first.chars id) + 1)
    have hfold : (nameList offset first (p :: more)).more =
        (⟨offset + width (first.chars id), offset + width (first.chars id) + 1⟩,
          p.name (offset + width (first.chars id) + 1)) ::
            (nameList (offset + width (first.chars id) + 1) p more).more := rfl
    have hfirst : width (first.chars id) =
        width first.before + (width first.core + width first.after) := by
      simp only [Padded.chars, id, width_append]
    have hcover : s.cover (p.name (offset + width (first.chars id) + 1)).span =
        ⟨s.start, offset + width (first.chars id) + 1 + width p.before + width p.core⟩ := by
      rw [hp, Name.spelled, Span.cover]
      congr 1 <;> simp only [hfirst] <;> omega
    rw [hfold, List.foldl_cons, hcover, ih hmore (by simp only [hfirst]; omega) rfl]
    simp only [spread, width_append, width_cons, hfirst, show ','.utf8Size = 1 from rfl]
    congr 1
    omega

theorem span_nameList (h : ∀ p ∈ first :: more, p.Valid (InputName minLength)) (offset : Nat) :
    (nameList offset first more).span = ⟨offset + width first.before,
      offset + width first.before + width (spread first more)⟩ := by
  have hfirst : (nameList offset first more).first = _ :=
    NameList.name_of_inputName (h first List.mem_cons_self) offset
  rw [NameList.span, hfirst]
  exact foldl_cover h (Nat.le_refl _) rfl

theorem spread_ne_nil (h : ∀ p ∈ first :: more, p.Valid (InputName minLength)) :
    spread first more ≠ [] := by
  have hfirst := (h first List.mem_cons_self).core.1.ne_nil
  cases more <;> simp [spread, hfirst]

theorem head?_spread (h : ∀ p ∈ first :: more, p.Valid (InputName minLength)) :
    ∀ c ∈ (spread first more).head?, isNamePart c = true := by
  have hfirst := (h first List.mem_cons_self).core.1
  obtain ⟨c, w, hw⟩ := List.exists_cons_of_ne_nil hfirst.ne_nil
  have hc := hfirst.isNamePart c (by simp [hw])
  intro d hd
  cases more <;> simp only [spread, hw] at hd <;> cases hd <;> exact hc

theorem getLast?_spread (h : ∀ p ∈ first :: more, p.Valid (InputName minLength)) :
    ∀ c ∈ (spread first more).getLast?, isNamePart c = true := by
  induction more generalizing first with
  | nil =>
    intro c hc
    exact (h first List.mem_cons_self).core.1.isNamePart c (List.mem_of_getLast? hc)
  | cons p more ih =>
    obtain ⟨-, hmore⟩ := List.forall_mem_cons.1 h
    obtain ⟨d, rest, hd⟩ := List.exists_cons_of_ne_nil (spread_ne_nil hmore)
    have hlast := ih hmore
    rw [hd] at hlast
    have hspread : spread first (p :: more) =
        (first.core ++ (first.after ++ ',' :: p.before)) ++ d :: rest := by
      rw [spread, hd]
      simp
    rwa [hspread, List.getLast?_append_cons]

theorem blank_lastAfter (h : ∀ p ∈ first :: more, p.Valid (InputName minLength)) :
    Blank (lastAfter first more) := by
  induction more generalizing first with
  | nil => exact (h first List.mem_cons_self).after
  | cons p more ih => exact ih (List.forall_mem_cons.1 h).2

/-- What stands before the first name of a Forwarding statement. -/
def beforeSpread (first : Item) : List Char := "Forwarding(\x7b".toList ++ first.before

theorem width_beforeSpread (first : Item) :
    width (beforeSpread first) = 12 + width first.before := width_append ..

theorem forwarding_eq_spread (first : Item) (more : List Item) : forwarding first more =
    beforeSpread first ++ (spread first more ++ (lastAfter first more ++ "\x7d)".toList)) := by
  have h : ∀ front back : List Char,
      front ++ (first.chars id ++ (trailing id more ++ back)) = (front ++ first.before) ++
        (spread first more ++ (lastAfter first more ++ back)) := by
    intro front back
    rw [← List.append_assoc (first.chars id), chars_eq_spread]
    simp
  exact h "Forwarding(\x7b".toList "\x7d)".toList

/-- The tokens of a Forwarding statement from the first to the last name. -/
theorem inside_forwarding (h : ∀ p ∈ first :: more, p.Valid (InputName minLength)) {line : String}
    (hline : line.toList = forwarding first more) :
    Token.inside (Token.ofLine line) (nameList 12 first more).span =
      Token.ofText (width (beforeSpread first)) (spread first more) := by
  have hblank : ∀ {cs : List Char}, Blank cs → ∀ c ∈ cs, (Kind.ofChar c).isIdentPart = false := by
    intro cs hcs c hc
    rw [Kind.isIdentPart_text]
    exact not_isNamePart_of_isBlank (hcs c hc)
  have hname : ∀ {c : Char}, isNamePart c = true → (Kind.ofChar c).isIdentPart = true := by
    intro c hc
    rwa [Kind.isIdentPart_text]
  rw [Token.ofLine_eq, hline, forwarding_eq_spread, span_nameList h, ← width_beforeSpread,
    Token.inside_ofText]
  · obtain ⟨d, rest, hd⟩ := List.exists_cons_of_ne_nil (spread_ne_nil h)
    have hhead := head?_spread h
    rw [hd] at hhead ⊢
    refine .of_ends (p := Kind.isIdentPart) (u := false) (forall_getLast?_append ?_ ?_)
      fun c hc => ?_
    · have hlast : "Forwarding(\x7b".toList.getLast? = some '\x7b' := rfl
      rw [hlast]
      simp
      rfl
    · exact fun c hc => hblank (h first List.mem_cons_self).before c (List.mem_of_getLast? hc)
    · exact hname (hhead c hc)
  · refine .of_ends (p := Kind.isIdentPart) (u := true) ?_ (forall_head?_append ?_ ?_)
    · exact fun c hc => hname (getLast?_spread h c hc)
    · exact fun c hc => hblank (blank_lastAfter h) c (List.mem_of_head? hc)
    · have hhead : "\x7d)".toList.head? = some '\x7d' := rfl
      rw [hhead]
      simp
      rfl

end

end Layout

end LabelFlow
