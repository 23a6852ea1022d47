import LabelFlow.Proofs.NameList

/-!
# Reading output labels

Segments behind dots are read exactly if each is a word or missing
(`OutputLabel.readSegments_eq_some_iff`), an output label exactly if it is a path between blanks
(`OutputLabel.read_eq_some_iff`).
-/

set_option autoImplicit false

namespace LabelFlow

open Layout

theorem Text.Wordy.not_mem {cs : List Char} (h : Text.Wordy cs) {c : Char}
    (hc : Text.isWord c = false) : c ∉ cs := by
  intro hm
  have := h c hm
  rw [hc] at this
  cases this

theorem Text.Wordy.not_blank {cs : List Char} (h : Text.Wordy cs) :
    ∀ c ∈ cs, Text.isBlank c = false := fun c hc => Kind.not_blank_of_identPart (.inl (h c hc))

/-- A word is apart from what does not go on with it. -/
theorem Text.Word.apart_iff {w cs : List Char} (h : Text.Word w) :
    Text.Apart w cs ↔ ∀ x ∈ cs.head?, Text.isWord x = false := by
  refine ⟨fun hap x hx => ?_, fun hcs => ?_⟩
  · have hlast := List.getLast?_eq_some_getLast h.1
    have hword := Kind.ofChar_eq_word.2 (h.2 _ (List.mem_of_getLast? hlast))
    have hne := hap _ hlast x hx (by rw [hword]; rfl)
    rw [hword] at hne
    exact Bool.eq_false_iff.2 fun hx => hne (Kind.ofChar_eq_word.2 hx).symm
  · refine .of_class (p := (· == .word)) (fun c hc => ?_) fun c hc => ?_
    · exact beq_iff_eq.2 (Kind.ofChar_eq_word.2 (h.2 c hc))
    · exact beq_eq_false_iff_ne.2 fun he =>
        Bool.eq_false_iff.1 (hcs c hc) (Kind.ofChar_eq_word.1 he)

/-- A word is apart from what it does not go on with. -/
theorem Text.Word.apart_append_iff {cs w rest : List Char} (h : Text.Word w) :
    Text.Apart cs (w ++ rest) ↔ ∀ x ∈ cs.getLast?, Text.isWord x = false := by
  obtain ⟨c, w, rfl⟩ := List.exists_cons_of_ne_nil h.1
  have hword := Kind.ofChar_eq_word.2 (h.2 c List.mem_cons_self)
  refine ⟨fun hap x hx => Bool.eq_false_iff.2 fun hxw => ?_, fun hcs x hx y hy _ he => ?_⟩
  · have hx' := Kind.ofChar_eq_word.2 hxw
    exact hap x hx c rfl (by rw [hx']; rfl) (hx'.trans hword.symm)
  · cases hy
    exact Bool.eq_false_iff.1 (hcs x hx) (Kind.ofChar_eq_word.1 (he.trans hword))

@[simp] theorem Name.ofToken_mk (k : Kind) (cs : List Char) (start : Nat) :
    Name.ofToken ⟨k, .ofList cs, start⟩ = .spelled start cs := by
  rw [ofToken, Token.span, Token.stop_mk]
  rfl

namespace Token

/-- A word in front of what is no word is a token. -/
theorem ofText_word {w cs : List Char} (hw : Text.Word w) (hap : Text.Apart w cs) (start : Nat) :
    ofText start (w ++ cs) = ⟨.word, .ofList w, start⟩ :: ofText (start + Text.width w) cs :=
  ofText_run hw.1 (fun c hc => Kind.ofChar_eq_word.2 (hw.2 c hc)) rfl hap start

/-- A stretch whose first token is a word begins with that word. -/
theorem word_of_ofText_eq_cons {start : Nat} {cs : List Char} {t : Token} {ts : List Token}
    (h : ofText start cs = t :: ts) (ht : t.kind = .word) :
    ∃ w rest, cs = w ++ rest ∧ Text.Word w ∧ Text.Apart w rest ∧
      Name.ofToken t = Name.spelled start w ∧ t.start = start ∧
      ts = ofText (start + Text.width w) rest := by
  obtain ⟨w, rest, rfl, hu, rfl, hw, hk, hap, -⟩ := ofText_eq_cons h
  have hword : Text.Wordy w := fun c hc => Kind.ofChar_eq_word.1 (by rw [hk c hc, ht])
  refine ⟨w, rest, rfl, ⟨hw, hword⟩, hap, ?_, ?_, rfl⟩
  · rw [hu, Name.ofToken_mk]
  · rw [hu]

/-- A stretch whose first token is punctuation begins with its character. -/
theorem punct_of_ofText_eq_cons {k : Kind} {c : Char} (hc : k.char? = some c) {start : Nat}
    {cs : List Char} {t : Token} {ts : List Token} (h : ofText start cs = t :: ts)
    (ht : t.kind = k) : ∃ rest, cs = c :: rest ∧ t = ⟨k, .ofList [c], start⟩ ∧
      ts = ofText (start + 1) rest := by
  have htake : take? k (ofText start cs) = some (t, ts) := by rw [h, take?, if_pos ht]
  exact (take?_eq_some_iff hc).1 htake

end Token

/-- The characters of segments behind dots. -/
def Layout.dotted (segments : List (List Char)) : List Char := segments.flatMap ('.' :: ·)

theorem Layout.apart_dotted (w : List Char) (segments : List (List Char)) :
    Text.Apart w (dotted segments) := by
  cases segments with
  | nil => exact .nil_right w
  | cons x segments => exact .of_head rfl

theorem Layout.not_mem_path {p : Padded Path} (h : p.Valid Path.Valid) {c : Char}
    (hb : Text.isBlank c = false) (hw : Text.isWord c = false) (hd : c ≠ '.') :
    c ∉ p.chars Path.chars := by
  simp only [Padded.chars, Path.chars, List.mem_append, List.mem_flatMap, List.mem_cons, not_or]
  refine ⟨h.before.not_mem hb, ⟨h.core.labelType.2.not_mem hw, ?_⟩, h.after.not_mem hb⟩
  intro hm
  obtain ⟨x, hx, hc | hc⟩ := hm
  · exact hd hc
  · exact Text.Wordy.not_mem (h.core.segments x (List.mem_cons.2 hx)) hw hc

theorem Layout.Path.ne_nil {p : Path} (h : p.Valid) : p.chars ≠ [] := by
  intro hnil
  exact h.labelType.1 (List.append_eq_nil_iff.1 hnil).1

theorem Layout.Path.not_blank {p : Path} (h : p.Valid) : ∀ c ∈ p.chars, Text.isBlank c = false := by
  intro c hc
  rcases List.mem_append.1 hc with hc | hc
  · exact h.labelType.2.not_blank c hc
  · obtain ⟨w, hw, hc⟩ := List.mem_flatMap.1 hc
    rcases List.mem_cons.1 hc with rfl | hc
    · rfl
    · exact Text.Wordy.not_blank (h.segments w hw) c hc

namespace OutputLabel

theorem segments_of_readSegments {ts : List Token} {start : Nat} {cs : List Char} {ns : List Name}
    (hts : Token.ofText start cs = ts) (h : readSegments ts = some ns) :
    ∃ segments, (∀ w ∈ segments, Text.Wordy w) ∧ cs = dotted segments ∧
      ns = Path.names start segments := by
  have hdot : Kind.dot.char? = some '.' := rfl
  fun_induction readSegments ts generalizing start cs ns with
  | case1 =>
    obtain rfl := Token.ofText_eq_nil.1 hts
    cases h
    exact ⟨[], by simp, rfl, rfl⟩
  | case2 dot hk =>
    obtain ⟨rest, rfl, rfl, hrest⟩ := Token.punct_of_ofText_eq_cons hdot hts hk
    obtain rfl := Token.ofText_eq_nil.1 hrest.symm
    refine ⟨[[]], by simp [Text.Wordy], rfl, ?_⟩
    rw [← Option.some.inj h, Token.stop_mk]
    rfl
  | case3 => cases h
  | case4 dot next rest hk hw ih =>
    obtain ⟨cs, rfl, rfl, hrest⟩ := Token.punct_of_ofText_eq_cons hdot hts hk
    obtain ⟨w, cs, rfl, hword, -, hname, -, hts'⟩ := Token.word_of_ofText_eq_cons hrest.symm hw
    obtain ⟨ns', hns, rfl⟩ := Option.map_eq_some_iff.1 h
    obtain ⟨segments, hseg, rfl, rfl⟩ := ih hts'.symm hns
    refine ⟨w :: segments, List.forall_mem_cons.2 ⟨hword.2, hseg⟩, rfl, ?_⟩
    rw [hname]
    rfl
  | case5 dot next rest hk _ ih =>
    obtain ⟨cs, rfl, rfl, hrest⟩ := Token.punct_of_ofText_eq_cons hdot hts hk
    obtain ⟨ns', hns, rfl⟩ := Option.map_eq_some_iff.1 h
    obtain ⟨segments, hseg, rfl, rfl⟩ := ih hrest.symm hns
    refine ⟨[] :: segments, List.forall_mem_cons.2 ⟨by simp [Text.Wordy], hseg⟩, rfl, ?_⟩
    rw [Token.stop_mk]
    rfl
  | case6 => cases h

theorem readSegments_dotted {segments : List (List Char)} (h : ∀ w ∈ segments, Text.Wordy w)
    (start : Nat) : readSegments (Token.ofText start (dotted segments)) =
      some (Path.names start segments) := by
  have hdot : Kind.dot.char? = some '.' := rfl
  induction segments generalizing start with
  | nil => rfl
  | cons w segments ih =>
    obtain ⟨hw, hseg⟩ := List.forall_mem_cons.1 h
    have hrest := ih hseg (start + 1 + Text.width w)
    have hcons : dotted (w :: segments) = '.' :: (w ++ dotted segments) := rfl
    rw [hcons, Token.ofText_cons hdot]
    by_cases hnil : w = []
    · subst hnil
      cases segments with
      | nil =>
        show readSegments [⟨.dot, .ofList ['.'], start⟩] = _
        rw [readSegments, if_pos rfl, Token.stop_mk]
        rfl
      | cons x segments =>
        -- the next token is the dot of the segment that follows
        have hnext : dotted (x :: segments) = '.' :: (x ++ dotted segments) := rfl
        rw [Text.width_nil, Nat.add_zero, hnext, Token.ofText_cons hdot] at hrest
        rw [List.nil_append, hnext, Token.ofText_cons hdot, readSegments, if_pos rfl,
          if_neg (by simp), hrest, Option.map_some, Token.stop_mk]
        rfl
    · rw [Token.ofText_word ⟨hnil, hw⟩ (apart_dotted w segments), readSegments, if_pos rfl,
        if_pos rfl, hrest, Option.map_some, Name.ofToken, Token.span, Token.stop_mk]
      rfl

/-- A path is read as the output label it is. -/
theorem read_path {p : Padded Path} (h : p.Valid Path.Valid) (start : Nat) :
    read (Token.ofText start (p.chars Path.chars)) =
      some (p.core.label (start + Text.width p.before)) := by
  have hblank := Path.not_blank h.core
  obtain ⟨a, ⟨w, value, extra⟩, z⟩ := p
  obtain ⟨ha, ⟨hw, hseg⟩, hz⟩ := h
  have hpad : Token.unpad? (Token.ofText start (a ++ (w ++ dotted (value :: extra) ++ z))) =
      some _ := Token.unpad?_eq_some_iff.2
    ⟨a, w ++ dotted (value :: extra), z, ha, hz, hblank, rfl, rfl⟩
  rw [Token.ofText_word hw (apart_dotted w _)] at hpad
  show read (Token.ofText start (a ++ (w ++ dotted (value :: extra) ++ z))) = _
  rw [read, hpad]
  simp only [if_pos, readSegments_dotted hseg, Path.names, Text.placed_cons, List.map_cons, id,
    Name.isAbsent_spelled]
  rw [Name.ofToken, Token.span, Token.stop_mk]
  rfl

theorem read_eq_some_iff {start : Nat} {cs : List Char} {l : OutputLabel} :
    read (Token.ofText start cs) = some l ↔ ∃ p : Padded Path, p.Valid Path.Valid ∧
      cs = p.chars Path.chars ∧ l = p.core.label (start + Text.width p.before) := by
  refine ⟨fun h => ?_, fun ⟨p, hp, hcs, hl⟩ => by rw [hcs, hl, read_path hp]⟩
  unfold read at h
  split at h
  · rename_i t ts hpad
    obtain ⟨a, b, z, ha, hz, -, rfl, hb⟩ := Token.unpad?_eq_some_iff.1 hpad
    split at h
    · rename_i ht
      obtain ⟨w, rest, rfl, hw, -, hname, -, rfl⟩ := Token.word_of_ofText_eq_cons hb.symm ht
      split at h
      · rename_i value extra hread
        obtain ⟨segments, hseg, rfl, hns⟩ := segments_of_readSegments rfl hread
        cases segments with
        | nil => cases hns
        | cons v segments =>
          obtain ⟨rfl, rfl⟩ := List.cons.inj hns
          refine ⟨⟨a, ⟨w, v, segments⟩, z⟩, ⟨ha, ⟨hw, hseg⟩, hz⟩, rfl, ?_⟩
          rw [← Option.some.inj h, hname]
          simp only [id, Name.isAbsent_spelled]
          rfl
      · cases h
    · cases h
  · cases h

end OutputLabel

end LabelFlow
