import Mathlib.Data.List.Basic
import LabelFlow.Proofs.Outputs
import LabelFlow.Token.Search

/-!
# Finding names

A name is found exactly where it stands in the text with nothing around it that would go on with it:
`Token.mem_startsOf_identifier`, `mem_startsOf_beforeDot` and `mem_startsOf_afterDot`. So every
place covers the name (`Token.covers_of_mem_placesOf`).
-/

set_option autoImplicit false

namespace LabelFlow

namespace Pieces

variable {α : Type} {p : α → Bool}

/-- A separator divides the stretches of a list. -/
theorem stretches_cut_append {s : α} (hs : p s = true) (a b : List α) :
    (cut p (a ++ s :: b)).stretches = (cut p a).stretches ++ (cut p b).stretches := by
  induction a with
  | nil =>
    rw [List.nil_append, cut_separator hs]
    rfl
  | cons x a ih =>
    simp only [stretches] at ih
    rw [List.cons_append]
    cases hx : p x with
    | true =>
      rw [cut_separator hx, cut_separator hx]
      simp only [stretches, List.map_cons, List.cons_append, ih]
    | false =>
      rw [cut_other hx, cut_other hx]
      obtain ⟨h1, h2⟩ := List.cons.inj ih
      simp only [stretches, List.cons_append, h1, h2]
      rfl

theorem head_mem_stretches {m r : List α} (hm : ∀ y ∈ m, p y = false)
    (hr : ∀ y ∈ r.head?, p y = true) : m ∈ (cut p (m ++ r)).stretches := by
  cases r with
  | nil =>
    rw [List.append_nil, cut_of_forall hm]
    exact List.mem_cons_self
  | cons s r =>
    rw [cut_append_cons hm (hr s rfl)]
    exact List.mem_cons_self

/-- A stretch between separators is bounded by separators or by the ends of the list. -/
theorem mem_stretches_cut_iff {xs m : List α} : m ∈ (cut p xs).stretches ↔
    ∃ l r, xs = l ++ (m ++ r) ∧ (∀ y ∈ m, p y = false) ∧ (∀ y ∈ l.getLast?, p y = true) ∧
      ∀ y ∈ r.head?, p y = true := by
  refine ⟨fun h => ?_, fun h => ?_⟩
  · obtain ⟨hhead, htail⟩ := not_mem_of_cut p xs
    have hjoin := join_cut p xs
    have hnext : ∀ {es : List (α × List α)}, (∀ e ∈ es, p e.1 = true) →
        ∀ y ∈ (es.flatMap fun e => e.1 :: e.2).head?, p y = true := by
      intro es hes y hy
      cases es with
      | nil => cases hy
      | cons e es =>
        cases hy
        exact hes e List.mem_cons_self
    rcases List.mem_cons.1 h with rfl | h
    · exact ⟨[], _, hjoin.symm, hhead, nofun, hnext fun e he => (htail e he).1⟩
    · obtain ⟨e, he, rfl⟩ := List.mem_map.1 h
      obtain ⟨l, r, hlr⟩ := List.append_of_mem he
      refine ⟨(cut p xs).head ++ (l.flatMap (fun e => e.1 :: e.2) ++ [e.1]),
        r.flatMap fun e => e.1 :: e.2, ?_, (htail e he).2, ?_, hnext fun e' he' => ?_⟩
      · apply hjoin.symm.trans
        rw [join, hlr]
        simp
      · rw [← List.append_assoc, List.getLast?_append_cons]
        intro y hy
        cases hy
        exact (htail e he).1
      · exact (htail e' (hlr ▸ List.mem_append_right l (List.mem_cons_of_mem e he'))).1
  · obtain ⟨l, r, rfl, hm, hl, hr⟩ := h
    rcases List.eq_nil_or_concat l with rfl | ⟨l, s, rfl⟩
    · exact head_mem_stretches hm hr
    · rw [List.concat_eq_append, List.append_assoc, List.singleton_append,
        stretches_cut_append (hl s (by simp))]
      exact List.mem_append_right _ (head_mem_stretches hm hr)

end Pieces

/-- Neighbours stand side by side in the list. -/
theorem Token.mem_neighbours_iff {ts : List Token} {t u : Token} :
    (t, u) ∈ neighbours ts ↔ ∃ l r, ts = l ++ t :: u :: r := by
  unfold neighbours
  induction ts with
  | nil => simp
  | cons x ts ih =>
    cases ts with
    | nil =>
      simp only [List.tail_cons, List.zip_nil_right, List.not_mem_nil, false_iff]
      intro ⟨l, r, h⟩
      cases l with
      | nil => cases h
      | cons y l => cases l <;> cases h
    | cons y ts =>
      rw [List.tail_cons, List.zip_cons_cons, List.mem_cons]
      rw [List.tail_cons] at ih
      refine ⟨fun h => ?_, fun h => ?_⟩
      · rcases h with h | h
        · cases h
          exact ⟨[], ts, rfl⟩
        · obtain ⟨l, r, h⟩ := ih.1 h
          exact ⟨x :: l, r, by rw [h]; rfl⟩
      · obtain ⟨l, r, h⟩ := h
        cases l with
        | nil =>
          cases h
          exact .inl rfl
        | cons z l =>
          obtain ⟨-, h⟩ := List.cons.inj h
          exact .inr (ih.2 ⟨l, r, h⟩)

theorem Kind.isIdentPart_text (c : Char) : (ofChar c).isIdentPart = Text.isNamePart c := by
  rw [Bool.eq_iff_iff, isIdentPart_ofChar, Text.isNamePart, Bool.or_eq_true, beq_iff_eq]

/-- Texts are apart if a class holds of the end of one and not of the beginning of the other. -/
theorem Text.Apart.of_ends {p : Kind → Bool} {u : Bool} {a b : List Char}
    (ha : ∀ c ∈ a.getLast?, p (.ofChar c) = u) (hb : ∀ c ∈ b.head?, p (.ofChar c) = !u) :
    Apart a b := by
  intro x hx y hy _ he
  have h := ha x hx
  rw [he, hb y hy] at h
  cases u <;> cases h

namespace Token

open Text

/-! ## Stretches of tokens -/

/-- Tokens come apart where their text does. -/
theorem ofText_eq_append {start : Nat} {cs : List Char} {l m : List Token}
    (h : ofText start cs = l ++ m) : ∃ a b, cs = a ++ b ∧ Apart a b ∧ l = ofText start a ∧
      m = ofText (start + width a) b := by
  induction l generalizing start cs with
  | nil => exact ⟨[], cs, rfl, .nil_left cs, rfl, h.symm⟩
  | cons t l ih =>
    obtain ⟨x, rest, rfl, -, hts, hx, -, hap, -⟩ := ofText_eq_cons h
    obtain ⟨a, b, rfl, hab, rfl, rfl⟩ := ih hts.symm
    have hxa : Apart x a := by
      cases a with
      | nil => exact .nil_right x
      | cons c a => exact hap
    have hone : ofText start x = [t] := by
      have h' : ofText start (x ++ (a ++ b)) = [t] ++ ofText (start + width x) (a ++ b) :=
        h.trans (congrArg (t :: ·) hts)
      rw [ofText_append start hap] at h'
      exact List.append_cancel_right h'
    refine ⟨x ++ a, b, (List.append_assoc ..).symm, ?_, ?_, by rw [width_append, Nat.add_assoc]⟩
    · cases a with
      | nil => rwa [List.append_nil]
      | cons c a => rwa [Apart, List.getLast?_append_cons]
    · rw [ofText_append start hxa, hone]
      rfl

theorem head?_ofText (start : Nat) (cs : List Char) :
    (ofText start cs).head?.map kind = cs.head?.map Kind.ofChar := by
  refine ofText_induction (motive := fun _ cs ts => ts.head?.map kind = cs.head?.map Kind.ofChar)
    (fun _ => rfl) ?_ start cs
  intro start k x rest hx hk _ _ _
  cases x with
  | nil => exact absurd rfl hx
  | cons c x => exact congrArg some (hk c List.mem_cons_self).symm

theorem getLast?_ofText (start : Nat) (cs : List Char) :
    (ofText start cs).getLast?.map kind = cs.getLast?.map Kind.ofChar := by
  refine ofText_induction
    (motive := fun _ cs ts => ts.getLast?.map kind = cs.getLast?.map Kind.ofChar)
    (fun _ => rfl) ?_ start cs
  intro start k x rest hx hk _ _ ih
  cases rest with
  | nil =>
    have hlast := List.getLast?_eq_some_getLast hx
    rw [List.append_nil, hlast, Option.map_some, hk _ (List.mem_of_getLast? hlast)]
    rfl
  | cons c rest =>
    have hne : ofText (start + width x) (c :: rest) ≠ [] :=
      mt ofText_eq_nil.1 (List.cons_ne_nil c rest)
    obtain ⟨t, ts, hts⟩ := List.exists_cons_of_ne_nil hne
    rw [List.getLast?_append_cons, ← ih, hts, List.getLast?_cons_cons]

/-- A condition on the first token is one on the first character. -/
theorem forall_head?_ofText {P : Kind → Prop} {start : Nat} {cs : List Char} :
    (∀ t ∈ (ofText start cs).head?, P t.kind) ↔ ∀ c ∈ cs.head?, P (.ofChar c) := by
  have h := head?_ofText start cs
  cases hts : (ofText start cs).head? <;> cases hcs : cs.head? <;> rw [hts, hcs] at h <;>
    simp_all

/-- A condition on the last token is one on the last character. -/
theorem forall_getLast?_ofText {P : Kind → Prop} {start : Nat} {cs : List Char} :
    (∀ t ∈ (ofText start cs).getLast?, P t.kind) ↔ ∀ c ∈ cs.getLast?, P (.ofChar c) := by
  have h := getLast?_ofText start cs
  cases hts : (ofText start cs).getLast? <;> cases hcs : cs.getLast? <;> rw [hts, hcs] at h <;>
    simp_all

/-! ## Names -/

theorem startIfNamed_ofText {name : String} {start o : Nat} {cs : List Char} :
    startIfNamed name (ofText start cs) = some o ↔ cs ≠ [] ∧ .ofList cs = name ∧ o = start := by
  cases hts : ofText start cs with
  | nil => simp [startIfNamed, ofText_eq_nil.1 hts]
  | cons t ts =>
    have hne : cs ≠ [] := by
      intro h
      rw [h] at hts
      cases hts
    obtain ⟨x, rest, -, ht, -⟩ := ofText_eq_cons hts
    have htext := textOf_ofText start cs
    rw [hts] at htext
    rw [startIfNamed, htext, ht]
    by_cases hname : String.ofList cs = name <;> simp [hname, hne, eq_comm]

/-- The runs of identifiers are the longest stretches of the characters of names. -/
theorem mem_identifierRuns {m : List Token} {start : Nat} {cs : List Char} :
    m ∈ identifierRuns (ofText start cs) ∧ m ≠ [] ↔ ∃ a n b, cs = a ++ (n ++ b) ∧ n ≠ [] ∧
      m = ofText (start + width a) n ∧ (∀ c ∈ n, isNamePart c = true) ∧
        (∀ c ∈ a.getLast?, isNamePart c = false) ∧ ∀ c ∈ b.head?, isNamePart c = false := by
  have hall : ∀ {o : Nat} {n : List Char}, (∀ t ∈ ofText o n, (!t.isIdentPart) = false) ↔
      ∀ c ∈ n, isNamePart c = true := by
    intro o n
    have h := all_ofText Kind.isIdentPart o n
    rw [Bool.eq_iff_iff, List.all_eq_true, List.all_eq_true] at h
    simp only [Kind.isIdentPart_text] at h
    simp only [Bool.not_eq_false']
    exact h
  have hlast : ∀ {o : Nat} {a : List Char}, (∀ t ∈ (ofText o a).getLast?, (!t.isIdentPart) = true) ↔
      ∀ c ∈ a.getLast?, isNamePart c = false := by
    intro o a
    simp only [Bool.not_eq_true', ← Kind.isIdentPart_text]
    exact forall_getLast?_ofText (P := fun k => k.isIdentPart = false)
  have hhead : ∀ {o : Nat} {b : List Char}, (∀ t ∈ (ofText o b).head?, (!t.isIdentPart) = true) ↔
      ∀ c ∈ b.head?, isNamePart c = false := by
    intro o b
    simp only [Bool.not_eq_true', ← Kind.isIdentPart_text]
    exact forall_head?_ofText (P := fun k => k.isIdentPart = false)
  rw [identifierRuns, Pieces.mem_stretches_cut_iff]
  refine ⟨fun h => ?_, fun h => ?_⟩
  · obtain ⟨⟨l, r, hts, hm, hl, hr⟩, hne⟩ := h
    obtain ⟨a, _, rfl, -, rfl, hrest⟩ := ofText_eq_append hts
    obtain ⟨n, b, rfl, -, rfl, rfl⟩ := ofText_eq_append hrest.symm
    exact ⟨a, n, b, rfl, mt ofText_eq_nil.2 hne, rfl, hall.1 hm, hlast.1 hl, hhead.1 hr⟩
  · obtain ⟨a, n, b, rfl, hne, rfl, hn, ha, hb⟩ := h
    have hafter : Apart a (n ++ b) := by
      obtain ⟨c, n, rfl⟩ := List.exists_cons_of_ne_nil hne
      refine .of_ends (p := Kind.isIdentPart) (u := false) ?_ ?_ <;>
        simp only [Kind.isIdentPart_text]
      · exact ha
      · intro d hd
        cases hd
        exact hn c List.mem_cons_self
    have hbefore : Apart n b := by
      refine .of_ends (p := Kind.isIdentPart) (u := true) ?_ ?_ <;>
        simp only [Kind.isIdentPart_text]
      · exact fun c hc => hn c (List.mem_of_getLast? hc)
      · exact hb
    refine ⟨⟨ofText start a, ofText (start + width a + width n) b, ?_, hall.2 hn, hlast.2 ha,
      hhead.2 hb⟩, mt ofText_eq_nil.1 hne⟩
    rw [ofText_append start hafter, ofText_append _ hbefore]

/-- A whole identifier is found where nothing on either side goes on with it. -/
theorem mem_startsOf_identifier {name : String} {start o : Nat} {cs : List Char} :
    o ∈ startsOf (ofText start cs) name .identifier ↔ name.toList ≠ [] ∧ ∃ a b,
      cs = a ++ (name.toList ++ b) ∧ (∀ c ∈ name.toList, isNamePart c = true) ∧
        (∀ c ∈ a.getLast?, isNamePart c = false) ∧ (∀ c ∈ b.head?, isNamePart c = false) ∧
          o = start + width a := by
  rw [startsOf, List.mem_filterMap]
  refine ⟨fun h => ?_, fun h => ?_⟩
  · obtain ⟨m, hm, ho⟩ := h
    have hne : m ≠ [] := by
      rintro rfl
      cases ho
    obtain ⟨a, n, b, rfl, -, rfl, hn, ha, hb⟩ := mem_identifierRuns.1 ⟨hm, hne⟩
    obtain ⟨hne, rfl, rfl⟩ := startIfNamed_ofText.1 ho
    rw [String.toList_ofList]
    exact ⟨hne, a, b, rfl, hn, ha, hb, rfl⟩
  · obtain ⟨hne, a, b, rfl, hn, ha, hb, rfl⟩ := h
    exact ⟨_, (mem_identifierRuns.2 ⟨a, name.toList, b, rfl, hne, rfl, hn, ha, hb⟩).1,
      startIfNamed_ofText.2 ⟨hne, String.ofList_toList, rfl⟩⟩

/-- A type is found where a dot follows it and nothing before goes on with it. -/
theorem mem_startsOf_beforeDot {name : String} {start o : Nat} {cs : List Char} :
    o ∈ startsOf (ofText start cs) name .beforeDot ↔ Word name.toList ∧ ∃ a b,
      cs = a ++ (name.toList ++ '.' :: b) ∧ (∀ c ∈ a.getLast?, isWord c = false) ∧
        o = start + width a := by
  simp only [startsOf, List.mem_filterMap, Prod.exists, mem_neighbours_iff]
  refine ⟨fun h => ?_, fun h => ?_⟩
  · obtain ⟨t, u, ⟨l, r, hts⟩, ho⟩ := h
    split at ho
    · rename_i hkinds
      obtain ⟨ht, rfl, hu⟩ := hkinds
      obtain ⟨a, _, rfl, hap, rfl, hrest⟩ := ofText_eq_append hts
      obtain ⟨w, _, rfl, hw, -, hname, hstart, hrest⟩ := word_of_ofText_eq_cons hrest.symm ht
      obtain ⟨b, rfl, -, -⟩ := punct_of_ofText_eq_cons rfl hrest.symm hu
      have htext : t.text = .ofList w := congrArg Name.text hname
      rw [htext, String.toList_ofList]
      exact ⟨hw, a, b, rfl, hw.apart_append_iff.1 hap, (Option.some.inj ho).symm.trans hstart⟩
    · cases ho
  · obtain ⟨hw, a, b, rfl, ha, rfl⟩ := h
    have hname : String.ofList name.toList = name := String.ofList_toList
    refine ⟨⟨.word, .ofList name.toList, start + width a⟩,
      ⟨.dot, .ofList ['.'], start + width a + width name.toList⟩,
      ⟨ofText start a, ofText (start + width a + width name.toList + 1) b, ?_⟩,
      if_pos ⟨rfl, hname, rfl⟩⟩
    rw [ofText_append start (hw.apart_append_iff.2 ha), ofText_word hw (.of_head rfl),
      ofText_cons (k := .dot) rfl]

/-- A value is found where a dot stands before it and nothing after it goes on with it. -/
theorem mem_startsOf_afterDot {name : String} {start o : Nat} {cs : List Char} :
    o ∈ startsOf (ofText start cs) name .afterDot ↔ Word name.toList ∧ ∃ a b,
      cs = a ++ '.' :: (name.toList ++ b) ∧ (∀ c ∈ b.head?, isWord c = false) ∧
        o = start + width a + 1 := by
  simp only [startsOf, List.mem_filterMap, Prod.exists, mem_neighbours_iff]
  refine ⟨fun h => ?_, fun h => ?_⟩
  · obtain ⟨t, u, ⟨l, r, hts⟩, ho⟩ := h
    split at ho
    · rename_i hkinds
      obtain ⟨ht, hu, rfl⟩ := hkinds
      obtain ⟨a, _, rfl, -, rfl, hrest⟩ := ofText_eq_append hts
      obtain ⟨_, rfl, -, hrest⟩ := punct_of_ofText_eq_cons rfl hrest.symm ht
      obtain ⟨w, b, rfl, hw, hap, hname, hstart, -⟩ := word_of_ofText_eq_cons hrest.symm hu
      have htext : u.text = .ofList w := congrArg Name.text hname
      rw [htext, String.toList_ofList]
      exact ⟨hw, a, b, rfl, hw.apart_iff.1 hap, (Option.some.inj ho).symm.trans hstart⟩
    · cases ho
  · obtain ⟨hw, a, b, rfl, hb, rfl⟩ := h
    have hname : String.ofList name.toList = name := String.ofList_toList
    refine ⟨⟨.dot, .ofList ['.'], start + width a⟩,
      ⟨.word, .ofList name.toList, start + width a + 1⟩,
      ⟨ofText start a, ofText (start + width a + 1 + width name.toList) b, ?_⟩,
      if_pos ⟨rfl, rfl, hname⟩⟩
    rw [ofText_append start (.of_head rfl), ofText_cons (k := .dot) rfl,
      ofText_word hw (hw.apart_iff.2 hb)]

/-- A token covers its text in a line that the tokens are part of. -/
theorem covers_of_mem_ofText {a cs b : List Char} {t : Token} (h : t ∈ ofText (width a) cs) :
    t.span.Covers (a ++ (cs ++ b)) t.text.toList := by
  obtain ⟨l, r, hts⟩ := List.append_of_mem h
  obtain ⟨x, _, rfl, -, -, hrest⟩ := ofText_eq_append hts
  obtain ⟨w, y, rfl, ht, -⟩ := ofText_eq_cons hrest.symm
  refine ⟨a ++ x, y ++ b, ?_, ?_⟩
  · rw [ht, String.toList_ofList]
    simp
  · rw [ht, span, stop_mk, String.toList_ofList, width_append]

/-- The text of punctuation is its character. -/
theorem text_of_mem_ofText {k : Kind} {c : Char} (hc : k.char? = some c) {start : Nat}
    {cs : List Char} {t : Token} (h : t ∈ ofText start cs) (hk : t.kind = k) :
    t.text = .ofList [c] := by
  obtain ⟨l, r, hts⟩ := List.append_of_mem h
  obtain ⟨_, _, -, -, -, hrest⟩ := ofText_eq_append hts
  obtain ⟨_, -, ht, -⟩ := punct_of_ofText_eq_cons hc hrest.symm hk
  rw [ht]

/-- The text of a word is one. -/
theorem word_of_mem_ofText {start : Nat} {cs : List Char} {t : Token} (h : t ∈ ofText start cs)
    (hk : t.kind = .word) : Text.Word t.text.toList := by
  obtain ⟨l, r, hts⟩ := List.append_of_mem h
  obtain ⟨_, _, -, -, -, hrest⟩ := ofText_eq_append hts
  obtain ⟨w, _, -, hw, -, hname, -⟩ := word_of_ofText_eq_cons hrest.symm hk
  have htext : t.text = .ofList w := congrArg Name.text hname
  rwa [htext, String.toList_ofList]

/-- What is found is a name that stands where it is found. -/
theorem exists_of_mem_startsOf {name : String} {surrounding : Surrounding} {start o : Nat}
    {cs : List Char} (h : o ∈ startsOf (ofText start cs) name surrounding) :
    name.toList ≠ [] ∧ ∃ a b, cs = a ++ (name.toList ++ b) ∧ o = start + width a := by
  cases surrounding with
  | identifier =>
    obtain ⟨hne, a, b, hcs, -, -, -, ho⟩ := mem_startsOf_identifier.1 h
    exact ⟨hne, a, b, hcs, ho⟩
  | beforeDot =>
    obtain ⟨hw, a, b, hcs, -, ho⟩ := mem_startsOf_beforeDot.1 h
    exact ⟨hw.1, a, _, hcs, ho⟩
  | afterDot =>
    obtain ⟨hw, a, b, rfl, -, rfl⟩ := mem_startsOf_afterDot.1 h
    refine ⟨hw.1, a ++ ['.'], b, by simp, ?_⟩
    rw [width_append, width_cons, width_nil, show '.'.utf8Size = 1 from rfl, Nat.add_assoc]

theorem ne_nil_of_mem_placesOf {name : String} {surrounding : Surrounding} {start : Nat}
    {cs : List Char} {s : Span} (h : s ∈ placesOf (ofText start cs) name surrounding) :
    name.toList ≠ [] := by
  obtain ⟨o, ho, -⟩ := List.mem_map.1 h
  exact (exists_of_mem_startsOf ho).1

/-- A name that is found has a first place. -/
theorem firstPlaceOf_of_mem {tokens : List Token} {name : String} {o : Nat}
    (h : o ∈ startsOf tokens name .identifier) : ∃ s, firstPlaceOf tokens name = some s := by
  rw [firstPlaceOf, placesOf]
  cases hs : startsOf tokens name .identifier with
  | nil =>
    rw [hs] at h
    cases h
  | cons p ps => exact ⟨_, rfl⟩

/-- Every place of a name covers the name in a line that the tokens are part of. -/
theorem covers_of_mem_placesOf {name : String} {surrounding : Surrounding} {a cs b : List Char}
    {s : Span} (h : s ∈ placesOf (ofText (width a) cs) name surrounding) :
    s.Covers (a ++ (cs ++ b)) name.toList := by
  obtain ⟨o, ho, rfl⟩ := List.mem_map.1 h
  obtain ⟨-, x, y, rfl, rfl⟩ := exists_of_mem_startsOf ho
  exact ⟨a ++ x, y ++ b, by simp, by rw [width_append]⟩

end Token

end LabelFlow
