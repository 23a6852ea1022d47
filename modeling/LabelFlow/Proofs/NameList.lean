import LabelFlow.Proofs.Reading

/-!
# Reading lists of names

A stretch between separators is read as a name exactly if it is an item, and the name is the one in
the item (`NameList.readName_eq_some_iff`). A list in braces is read exactly if it is a comma list
of items (`NameList.read_eq_some_iff`).
-/

set_option autoImplicit false

namespace LabelFlow

open Layout

namespace Text.Identifier

variable {cs : List Char}

theorem ne_nil (h : Identifier cs) : cs ≠ [] := by
  obtain ⟨c, rest, rfl, -⟩ := h
  simp

theorem forall_mem (h : Identifier cs) : ∀ c ∈ cs, isWord c = true ∨ c = '|' := by
  obtain ⟨c, rest, rfl, hc, hrest⟩ := h
  exact List.forall_mem_cons.2 ⟨.inl hc, hrest⟩

theorem not_blank (h : Identifier cs) : ∀ c ∈ cs, isBlank c = false :=
  fun c hc => Kind.not_blank_of_identPart (h.forall_mem c hc)

/-- A character that is neither of a word nor a pipe is in no identifier. -/
theorem not_mem (h : Identifier cs) {c : Char} (hw : isWord c = false) (hp : c ≠ '|') : c ∉ cs := by
  intro hc
  rcases h.forall_mem c hc with h | h
  · rw [hw] at h
    cases h
  · exact hp h

end Text.Identifier

theorem Text.Blank.not_mem {cs : List Char} (h : Text.Blank cs) {c : Char}
    (hc : Text.isBlank c = false) : c ∉ cs := by
  intro hm
  have := h c hm
  rw [hc] at this
  cases this

/-- An input stands where a name may be missing. -/
theorem Layout.Padded.Valid.optional {minLength : Nat} {p : Item}
    (h : p.Valid (InputName minLength)) : p.Valid (OptionalName minLength) :=
  ⟨h.before, .inr h.core, h.after⟩

namespace Name

/-- Neighbouring tokens spell the characters of their stretch. -/
theorem ofTokens_of_ofText {start : Nat} {cs : List Char} {t : Token} {ts : List Token}
    (h : Token.ofText start cs = t :: ts) : ofTokens t ts = spelled start cs := by
  have hstart : t.start = start := by
    obtain ⟨x, rest, -, ht, -⟩ := Token.ofText_eq_cons h
    rw [ht]
  have htext := Token.textOf_ofText start cs
  rw [h] at htext
  unfold ofTokens spelled
  simp only [htext, hstart, String.toList_ofList]

@[simp] theorem text_spelled (offset : Nat) (cs : List Char) :
    (spelled offset cs).text = .ofList cs := rfl

theorem isAbsent_spelled (offset : Nat) (cs : List Char) :
    (spelled offset cs).isAbsent = true ↔ cs = [] := by
  rw [isAbsent, beq_iff_eq, text_spelled, ← String.toList_inj, String.toList_ofList]
  rfl

end Name

namespace Token

theorem identifier_iff {start : Nat} {cs : List Char} {t : Token} {ts : List Token}
    (h : ofText start cs = t :: ts) :
    t.kind = .word ∧ ts.all isIdentPart = true ↔ Text.Identifier cs := by
  have hall := all_ofText Kind.isIdentPart start cs
  rw [h, List.all_cons] at hall
  obtain ⟨c, cs, rfl⟩ : ∃ c rest, cs = c :: rest := by
    apply List.exists_cons_of_ne_nil
    intro h0
    rw [h0] at h
    cases h
  rw [kind_of_ofText_cons h, Kind.ofChar_eq_word]
  rw [kind_of_ofText_cons h, List.all_cons] at hall
  refine ⟨fun h => ?_, fun h => ?_⟩
  · obtain ⟨hc, hts⟩ := h
    refine ⟨c, cs, rfl, hc, fun x hx => ?_⟩
    rw [show ts.all (fun t => t.kind.isIdentPart) = true from hts, Bool.and_true,
      Bool.eq_iff_iff, Bool.and_eq_true] at hall
    have hx' := List.all_eq_true.1 (hall.1 (Kind.isIdentPart_ofChar.2 (.inl hc))).2 x hx
    exact Kind.isIdentPart_ofChar.1 hx'
  · obtain ⟨d, rest, hd, hw, hrest⟩ := h
    obtain ⟨rfl, rfl⟩ := List.cons.inj hd
    have hpart : (Kind.ofChar c).isIdentPart = true := Kind.isIdentPart_ofChar.2 (.inl hw)
    have hcs : (cs.all fun x => (Kind.ofChar x).isIdentPart) = true :=
      List.all_eq_true.2 fun x hx => Kind.isIdentPart_ofChar.2 (hrest x hx)
    rw [hpart, hcs, Bool.true_and, Bool.true_and] at hall
    exact ⟨hw, hall⟩

end Token

namespace NameList

theorem readName_eq_some_iff {minLength start : Nat} {cs : List Char} {n : Name} :
    readName minLength start (Token.ofText start cs) = some n ↔
      ∃ p : Item, p.Valid (OptionalName minLength) ∧ cs = p.chars id ∧ n = p.name start := by
  refine ⟨fun h => ?_, fun h => ?_⟩
  · unfold readName at h
    split at h
    · cases h
    · rename_i hpad
      obtain ⟨a, b, z, ha, hz, -, rfl, hb⟩ := Token.unpad?_eq_some_iff.1 hpad
      obtain rfl := Token.ofText_eq_nil.1 hb.symm
      refine ⟨⟨a, [], z⟩, ⟨ha, .inl rfl, hz⟩, rfl, ?_⟩
      rw [Token.stopOr_ofText, Option.some.injEq] at h
      rw [Item.name, if_pos rfl, ← h]
      simp [Nat.add_assoc]
    · rename_i t ts hpad
      obtain ⟨a, b, z, ha, hz, -, rfl, hb⟩ := Token.unpad?_eq_some_iff.1 hpad
      split at h
      · rename_i hname
        obtain ⟨hword, hident, hlen⟩ := hname
        have hid := (Token.identifier_iff hb.symm).1 ⟨hword, hident⟩
        rw [Name.ofTokens_of_ofText hb.symm, Name.text_spelled, String.length_ofList] at hlen
        refine ⟨⟨a, b, z⟩, ⟨ha, .inr ⟨hid, hlen⟩, hz⟩, rfl, ?_⟩
        rw [Item.name, if_neg hid.ne_nil, ← Option.some.inj h, Name.ofTokens_of_ofText hb.symm]
      · cases h
  · obtain ⟨⟨a, b, z⟩, ⟨ha, hb, hz⟩, rfl, rfl⟩ := h
    rcases hb with rfl | ⟨hid, hlen⟩
    · have hpad : Token.unpad? (Token.ofText start (a ++ ([] ++ z))) = some [] :=
        Token.unpad?_eq_some_iff.2 ⟨a, [], z, ha, hz, by simp, rfl, rfl⟩
      rw [readName, Padded.chars, id, hpad]
      simp only [Token.stopOr_ofText, Item.name, if_pos]
      simp [Nat.add_assoc]
    · cases hts : Token.ofText (start + Text.width a) b with
      | nil => exact absurd (Token.ofText_eq_nil.1 hts) hid.ne_nil
      | cons t ts =>
        have hpad : Token.unpad? (Token.ofText start (a ++ (b ++ z))) = some (t :: ts) :=
          Token.unpad?_eq_some_iff.2 ⟨a, b, z, ha, hz, hid.not_blank, rfl, hts.symm⟩
        obtain ⟨hword, hident⟩ := (Token.identifier_iff hts).2 hid
        rw [readName, Padded.chars, id, hpad]
        simp only [Name.ofTokens_of_ofText hts]
        rw [if_pos ⟨hword, hident, by simpa using hlen⟩, Item.name, if_neg hid.ne_nil]

/-- A comma and the name after it, from the tokens of both. -/
theorem readName_after_comma {minLength o : Nat} {cs : List Char} {e : Span × Name} :
    (readName minLength (Token.comma o).stop (Token.ofText (o + 1) cs)).map
        (fun name => ((Token.comma o).span, name)) = some e ↔
      ∃ p : Item, p.Valid (OptionalName minLength) ∧ cs = p.chars id ∧
        e = (⟨o, o + 1⟩, p.name (o + 1)) := by
  rw [Token.stop_comma, Option.map_eq_some_iff]
  simp only [readName_eq_some_iff, Token.span_comma]
  refine ⟨fun h => ?_, fun h => ?_⟩
  · obtain ⟨n, ⟨p, hp, rfl, rfl⟩, rfl⟩ := h
    exact ⟨p, hp, rfl, rfl⟩
  · obtain ⟨p, hp, rfl, rfl⟩ := h
    exact ⟨_, ⟨p, hp, rfl, rfl⟩, rfl⟩

/-- Reading stretches without commas that stand between commas. -/
theorem read_join {minLength start : Nat} {first : List Char} {more : List (List Char)}
    (hno : ∀ x ∈ first :: more, ',' ∉ x) {l : NameList} :
    read minLength (.ofText start (first ++ more.flatMap (',' :: ·))) = some l ↔
      ∃ p ps, (∀ q ∈ p :: ps, q.Valid (OptionalName minLength)) ∧ first = p.chars id ∧
        more = ps.map (Padded.chars id) ∧ l = nameList (start + 1) p ps := by
  have hmore : ∀ {o : Nat} {ys : List (Span × Name)},
      (Text.placed id o more).mapM (fun e =>
          (readName minLength (Token.comma e.1).stop (Token.ofText (e.1 + 1) e.2)).map
            fun name => ((Token.comma e.1).span, name)) = some ys ↔
        ∃ ps : List Item, (∀ p ∈ ps, p.Valid (OptionalName minLength)) ∧
          more = ps.map (Padded.chars id) ∧ ys = (Text.placed (Padded.chars id) o ps).map fun e =>
            (⟨e.1, e.1 + 1⟩, Item.name (e.1 + 1) e.2) :=
    Token.mapM_placed_eq_some_iff fun o x y => readName_after_comma
  rw [read, Braced.stop_opening]
  simp only [Braced.ofText, Token.cutAtCommas_ofText _ hno, List.mapM_map, Function.comp_def, bind,
    Option.bind_eq_some_iff, readName_eq_some_iff, hmore, Option.some.injEq]
  refine ⟨fun h => ?_, fun h => ?_⟩
  · obtain ⟨n, ⟨p, hp, rfl, rfl⟩, ns, ⟨ps, hps, rfl, rfl⟩, rfl⟩ := h
    exact ⟨p, ps, List.forall_mem_cons.2 ⟨hp, hps⟩, rfl, rfl, rfl⟩
  · obtain ⟨p, ps, h, rfl, rfl, rfl⟩ := h
    obtain ⟨hp, hps⟩ := List.forall_mem_cons.1 h
    exact ⟨_, ⟨p, hp, rfl, rfl⟩, _, ⟨ps, hps, rfl, rfl⟩, rfl⟩

theorem not_mem_item {minLength : Nat} {p : Item} (h : p.Valid (OptionalName minLength)) {c : Char}
    (hb : Text.isBlank c = false) (hw : Text.isWord c = false) (hp : c ≠ '|') : c ∉ p.chars id := by
  simp only [Padded.chars, id, List.mem_append, not_or]
  refine ⟨h.before.not_mem hb, ?_, h.after.not_mem hb⟩
  rcases h.core with hc | ⟨hc, -⟩
  · simp [hc]
  · exact hc.not_mem hw hp

theorem not_mem_parts {α : Type} {written : α → List Char} {first : Padded α}
    {more : List (Padded α)} {c : Char} (hc : c ≠ ',')
    (h : ∀ p ∈ first :: more, c ∉ p.chars written) :
    c ∉ first.chars written ++ trailing written more := by
  intro hm
  rcases List.mem_append.1 hm with hm | hm
  · exact h first (by simp) hm
  · obtain ⟨p, hp, hm⟩ := List.mem_flatMap.1 hm
    rcases List.mem_cons.1 hm with hm | hm
    · exact hc hm
    · exact h p (by simp [hp]) hm

theorem trailing_eq {α : Type} (written : α → List Char) (more : List (Padded α)) :
    trailing written more = (more.map (Padded.chars written)).flatMap (',' :: ·) := by
  rw [trailing, List.flatMap_map]

/-- A list in braces is read as a name list exactly if it is a comma list of items. -/
theorem read_eq_some_iff {minLength start : Nat} {body : List Char} {l : NameList} :
    read minLength (.ofText start body) = some l ↔ ∃ first more,
      (∀ p ∈ first :: more, p.Valid (OptionalName minLength)) ∧
        body = first.chars id ++ trailing id more ∧ l = nameList (start + 1) first more := by
  refine ⟨fun h => ?_, fun h => ?_⟩
  · obtain ⟨first, more, rfl, hno⟩ := Pieces.exists_join ',' body
    obtain ⟨p, ps, hps, rfl, rfl, rfl⟩ := (read_join hno).1 h
    exact ⟨p, ps, hps, by rw [trailing_eq], rfl⟩
  · obtain ⟨p, ps, hps, rfl, rfl⟩ := h
    rw [trailing_eq]
    refine (read_join ?_).2 ⟨p, ps, hps, rfl, rfl, rfl⟩
    rw [← List.map_cons, List.forall_mem_map]
    exact fun q hq => not_mem_item (hps q hq) (by decide) (by decide) (by decide)

/-! ## Places -/

/-- Names and commas stand in a line as they should: each covers its own text, and each comma stands
between the names with its index and with the next one. -/
structure StandsIn (l : NameList) (line : List Char) : Prop where
  names : ∀ n ∈ l.names, n.span.Covers line n.text.toList
  commas : ∀ c ∈ l.commas, c.Covers line [',']
  count : l.names.length = l.commas.length + 1
  between : ∀ (i : Nat) (n n' : Name) (c : Span), l.commas[i]? = some c → l.names[i]? = some n →
    l.names[i + 1]? = some n' → n.span.stop ≤ c.start ∧ c.stop ≤ n'.span.start

theorem names_nameList (offset : Nat) (first : Item) (more : List Item) :
    (nameList offset first more).names = first.name offset ::
      (Text.placed (Padded.chars id) (offset + Text.width (first.chars id)) more).map
        fun e => Item.name (e.1 + 1) e.2 := by
  rw [names, nameList, List.map_map]
  rfl

theorem commas_nameList (offset : Nat) (first : Item) (more : List Item) :
    (nameList offset first more).commas =
      (Text.placed (Padded.chars id) (offset + Text.width (first.chars id)) more).map
        fun e => ⟨e.1, e.1 + 1⟩ := by
  rw [commas, nameList, List.map_map]
  rfl

theorem name_of_inputName {minLength : Nat} {p : Item} (h : p.Valid (InputName minLength))
    (offset : Nat) : p.name offset = .spelled (offset + Text.width p.before) p.core :=
  if_neg h.core.1.ne_nil

theorem text_item (p : Item) (offset : Nat) : (p.name offset).text = .ofList p.core := by
  unfold Item.name
  split
  · rename_i h
    rw [h]
    rfl
  · rfl

/-- The texts of the names are the cores of the items. -/
theorem text_nameList (offset : Nat) (first : Item) (more : List Item) :
    (nameList offset first more).names.map Name.text =
      (first :: more).map fun p => .ofList p.core := by
  have hmore : (Text.placed (Padded.chars id) (offset + Text.width (first.chars id)) more).map
      Prod.snd = more := Text.placed_map_snd _ _ more
  rw [names_nameList, List.map_cons, List.map_cons, text_item, List.map_map]
  conv => rhs; rw [← hmore, List.map_map]
  exact congrArg _ (List.map_congr_left fun e _ => text_item e.2 _)

theorem map_isAbsent_nameList (offset : Nat) (first : Item) (more : List Item) :
    (nameList offset first more).names.map Name.isAbsent =
      (first :: more).map fun p => p.core.isEmpty := by
  have htext := congrArg (List.map (· == "")) (text_nameList offset first more)
  rw [List.map_map, List.map_map] at htext
  refine htext.trans (List.map_congr_left fun p _ => ?_)
  rw [Bool.eq_iff_iff, Function.comp_apply, beq_iff_eq, ← String.toList_inj, String.toList_ofList,
    List.isEmpty_iff]
  rfl

/-- Some name is absent exactly if some item has no core. -/
theorem any_isAbsent_nameList {offset : Nat} {first : Item} {more : List Item} :
    (nameList offset first more).names.any Name.isAbsent = true ↔
      ∃ p ∈ first :: more, p.core = [] := by
  have h := map_isAbsent_nameList offset first more
  rw [← Function.id_comp Name.isAbsent, ← List.any_map, h, List.any_map, List.any_eq_true]
  simp only [Function.comp_apply, id, List.isEmpty_iff]

/-- All items have names of inputs exactly if no name is absent. -/
theorem inputNames_iff {minLength : Nat} {first : Item} {more : List Item} (offset : Nat) :
    (∀ p ∈ first :: more, p.Valid (InputName minLength)) ↔
      (∀ p ∈ first :: more, p.Valid (OptionalName minLength)) ∧
        ¬ (nameList offset first more).names.any Name.isAbsent = true := by
  rw [any_isAbsent_nameList]
  refine ⟨fun h => ⟨fun p hp => (h p hp).optional, fun habsent => ?_⟩, fun h p hp => ?_⟩
  · obtain ⟨p, hp, hnil⟩ := habsent
    exact (h p hp).core.1.ne_nil hnil
  · obtain ⟨hbefore, hcore, hafter⟩ := h.1 p hp
    exact ⟨hbefore, hcore.resolve_left fun hnil => h.2 ⟨p, hp, hnil⟩, hafter⟩

theorem covers_item (p : Item) (a b : List Char) :
    (p.name (Text.width a)).span.Covers (a ++ (p.chars id ++ b)) p.core := by
  unfold Item.name
  split
  · rename_i h
    exact ⟨a ++ (p.before ++ p.after), b, by simp [Padded.chars, h],
      by simp [h, Name.absent, Span.point, Nat.add_assoc]⟩
  · exact ⟨a ++ p.before, p.after ++ b, by simp [Padded.chars], by simp [Name.spelled]⟩

theorem bounds_item (p : Item) (offset : Nat) : offset ≤ (p.name offset).span.start ∧
    (p.name offset).span.stop ≤ offset + Text.width (p.chars id) := by
  unfold Item.name
  split
  · simp only [Name.absent, Span.point, Padded.chars, Text.width_append]
    omega
  · simp only [Name.spelled, Padded.chars, Text.width_append, id]
    omega

/-- Consecutive names have the comma with the index of the first one between them. -/
theorem between_nameList {first : Item} {more : List Item} {offset i : Nat} {n n' : Name} {c : Span}
    (hc : (nameList offset first more).commas[i]? = some c)
    (hn : (nameList offset first more).names[i]? = some n)
    (hn' : (nameList offset first more).names[i + 1]? = some n') :
    n.span.stop ≤ c.start ∧ c.stop ≤ n'.span.start := by
  rw [commas_nameList] at hc
  rw [names_nameList] at hn hn'
  induction more generalizing offset first i with
  | nil => cases hc
  | cons p more ih =>
    have hfirst := bounds_item first offset
    have hp := bounds_item p (offset + Text.width (first.chars id) + 1)
    cases i with
    | zero =>
      cases hc
      cases hn
      cases hn'
      exact ⟨hfirst.2, hp.1⟩
    | succ i => exact ih hc hn hn'

/-- The items of a comma list stand in their line. -/
theorem standsIn_nameList (a b : List Char) (first : Item) (more : List Item) :
    (nameList (Text.width a) first more).StandsIn (a ++ (first.chars id ++ (trailing id more ++ b)))
    where
  count := by simp [names, commas]
  between _ _ _ _ := between_nameList
  names n hn := by
    rw [names_nameList] at hn
    rcases List.mem_cons.1 hn with rfl | hn
    · rw [text_item, String.toList_ofList]
      exact covers_item first a _
    · obtain ⟨e, he, rfl⟩ := List.mem_map.1 hn
      obtain ⟨-, x, y, hxy, -, ho⟩ := Text.exists_of_mem_placed (rfl : ','.utf8Size = 1) he
      rw [text_item, String.toList_ofList, trailing, hxy, ho]
      have h := covers_item e.2 (a ++ (first.chars id ++ (x ++ [',']))) (y ++ b)
      simpa [Nat.add_assoc, show ','.utf8Size = 1 from rfl] using h
  commas c hc := by
    rw [commas_nameList] at hc
    obtain ⟨e, he, rfl⟩ := List.mem_map.1 hc
    obtain ⟨-, x, y, hxy, -, ho⟩ := Text.exists_of_mem_placed (rfl : ','.utf8Size = 1) he
    refine ⟨a ++ (first.chars id ++ x), e.2.chars id ++ (y ++ b), ?_, ?_⟩
    · rw [trailing, hxy]
      simp
    · simp [ho, Nat.add_assoc, show ','.utf8Size = 1 from rfl]

end NameList

end LabelFlow
