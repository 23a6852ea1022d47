import LabelFlow.Proofs.Outputs

/-!
# Reading Assignment statements

`Assignment.parse?_eq_some_iff`: a line is read as an Assignment statement exactly if it is the
layout of one, and what is read is the value of the layout.
-/

set_option autoImplicit false

namespace LabelFlow

open Layout

/-! ## Lists in braces -/

namespace Layout.Listing

/-- The parts of a comma list in order, each read at its place. -/
theorem names_parts {minLength : Nat} {first : Item} {more : List Item} {offset : Nat}
    (h : ∀ p ∈ first :: more, p.Valid (InputName minLength)) : (nameList offset first more).names =
      (parts first more).values id Name.spelled offset := by
  obtain ⟨hfirst, hmore⟩ := List.forall_mem_cons.1 h
  rw [NameList.names_nameList, values, NameList.name_of_inputName hfirst]
  refine congrArg _ (List.map_congr_left fun e he => NameList.name_of_inputName (hmore _ ?_) _)
  exact (Text.exists_of_mem_placed (rfl : ','.utf8Size = 1) he).1

theorem not_blank_of_parts {α : Type} {written : α → List Char} {first : Padded α}
    {more : List (Padded α)} (h : ∃ c ∈ written first.core, Text.isBlank c = false) :
    ((parts first more).chars written).all Text.isBlank = false := by
  obtain ⟨c, hc, hb⟩ := h
  refine List.all_eq_false.2 ⟨c, ?_, by simp [hb]⟩
  simp [chars, Padded.chars, hc]

theorem not_mem {α : Type} {written : α → List Char} {ok : α → Prop} {l : Listing α}
    (hl : l.Valid ok) {c : Char} (hb : Text.isBlank c = false) (hc : c ≠ ',')
    (hok : ∀ p : Padded α, p.Valid ok → c ∉ p.chars written) : c ∉ l.chars written := by
  cases l with
  | blank cs => exact Text.Blank.not_mem hl hb
  | parts first more => exact NameList.not_mem_parts hc fun p hp => hok p (hl p hp)

end Layout.Listing

namespace Assignment

theorem all_blank_body (start : Nat) (body : List Char) :
    (Braced.ofText start body).body.all Token.isBlank = body.all Text.isBlank := by
  have h := Token.all_ofText (· == .blank) (start + 1) body
  simp only [Kind.isBlank_ofChar] at h
  exact h

theorem readInputs_eq_some_iff {minLength start : Nat} {body : List Char} {ns : List Name} :
    readInputs minLength (.ofText start body) = some ns ↔ ∃ l : Listing (List Char),
      l.Valid (InputName minLength) ∧ body = l.chars id ∧
        ns = l.values id Name.spelled (start + 1) := by
  rw [readInputs, all_blank_body]
  refine ⟨fun h => ?_, fun ⟨l, hl, hbody, hns⟩ => ?_⟩
  · split at h
    · rename_i hblank
      exact ⟨.blank body, List.all_eq_true.1 hblank, rfl, (Option.some.inj h).symm⟩
    · simp only [bind, Option.bind_eq_some_iff, NameList.read_eq_some_iff] at h
      obtain ⟨_, ⟨first, more, hps, rfl, rfl⟩, h⟩ := h
      split at h
      · cases h
      · rename_i hpresent
        have hnames := (NameList.inputNames_iff _).2 ⟨hps, hpresent⟩
        refine ⟨.parts first more, hnames, rfl, ?_⟩
        rw [← Listing.names_parts hnames, Option.some.inj h]
  · cases l with
    | blank cs =>
      have hall : body.all Text.isBlank = true := hbody ▸ List.all_eq_true.2 hl
      rw [if_pos hall, hns]
      rfl
    | parts first more =>
      obtain ⟨hps, hpresent⟩ := (NameList.inputNames_iff (start + 1)).1 hl
      have hread : NameList.read minLength (.ofText start body) =
          some (nameList (start + 1) first more) :=
        NameList.read_eq_some_iff.2 ⟨first, more, hps, hbody, rfl⟩
      have hid := (hl first List.mem_cons_self).core.1
      obtain ⟨c, hc⟩ := List.exists_mem_of_ne_nil _ hid.ne_nil
      have hblank : body.all Text.isBlank = false :=
        hbody ▸ Listing.not_blank_of_parts ⟨c, hc, hid.not_blank c hc⟩
      simp only [hblank, bind, Option.bind_some, hread]
      rw [if_neg (by simp), if_neg hpresent, hns, Listing.names_parts hl]

/-- The stretches of a list of paths, read one by one. -/
theorem read_paths {start : Nat} {first : List Char} {more : List (List Char)}
    (hno : ∀ x ∈ first :: more, ',' ∉ x) {ls : List OutputLabel} :
    (Token.cutAtCommas (Token.ofText start (first ++ more.flatMap (',' :: ·)))).stretches.mapM
        OutputLabel.read = some ls ↔
      ∃ p ps, (∀ q ∈ p :: ps, q.Valid Path.Valid) ∧ first = p.chars Path.chars ∧
        more = ps.map (Padded.chars Path.chars) ∧
        ls = (Listing.parts p ps).values Path.chars (fun offset p => p.label offset) start := by
  have hmore : ∀ {o : Nat} {ys : List OutputLabel},
      (Text.placed id o more).mapM (fun e => OutputLabel.read (Token.ofText (e.1 + 1) e.2)) =
          some ys ↔
        ∃ ps : List (Padded Path), (∀ p ∈ ps, p.Valid Path.Valid) ∧
          more = ps.map (Padded.chars Path.chars) ∧
          ys = (Text.placed (Padded.chars Path.chars) o ps).map fun e =>
            e.2.core.label (e.1 + 1 + Text.width e.2.before) :=
    Token.mapM_placed_eq_some_iff fun o x y => OutputLabel.read_eq_some_iff
  rw [Token.cutAtCommas_ofText _ hno, Pieces.stretches]
  simp only [List.map_map, Function.comp_def, List.mapM_cons, List.mapM_map, bind, pure,
    Option.bind_eq_some_iff, OutputLabel.read_eq_some_iff, hmore, Option.some.injEq]
  refine ⟨fun h => ?_, fun h => ?_⟩
  · obtain ⟨n, ⟨p, hp, rfl, rfl⟩, ns, ⟨ps, hps, rfl, rfl⟩, rfl⟩ := h
    exact ⟨p, ps, List.forall_mem_cons.2 ⟨hp, hps⟩, rfl, rfl, rfl⟩
  · obtain ⟨p, ps, h, rfl, hmore, rfl⟩ := h
    obtain ⟨hp, hps⟩ := List.forall_mem_cons.1 h
    exact ⟨_, ⟨p, hp, rfl, rfl⟩, _, ⟨ps, hps, hmore, rfl⟩, rfl⟩

theorem readOutputs_eq_some_iff {start : Nat} {body : List Char} {ls : List OutputLabel} :
    readOutputs (.ofText start body) = some ls ↔ ∃ l : Listing Path, l.Valid Path.Valid ∧
      body = l.chars Path.chars ∧
        ls = l.values Path.chars (fun offset p => p.label offset) (start + 1) := by
  rw [readOutputs, all_blank_body]
  refine ⟨fun h => ?_, fun ⟨l, hl, hbody, hls⟩ => ?_⟩
  · split at h
    · rename_i hblank
      exact ⟨.blank body, List.all_eq_true.1 hblank, rfl, (Option.some.inj h).symm⟩
    · obtain ⟨first, more, rfl, hno⟩ := Pieces.exists_join ',' body
      obtain ⟨p, ps, hps, rfl, rfl, rfl⟩ := (read_paths hno).1 h
      refine ⟨.parts p ps, hps, ?_, rfl⟩
      rw [Listing.chars, NameList.trailing_eq]
  · cases l with
    | blank cs =>
      have hall : body.all Text.isBlank = true := hbody ▸ List.all_eq_true.2 hl
      rw [if_pos hall, hls]
      rfl
    | parts first more =>
      have hfirst := (hl first (by simp)).core.labelType
      obtain ⟨c, hc⟩ := List.exists_mem_of_ne_nil _ hfirst.1
      have hblank : body.all Text.isBlank = false := hbody ▸ Listing.not_blank_of_parts
        ⟨c, by simp [Path.chars, hc], hfirst.2.not_blank c hc⟩
      have hno : ∀ x ∈ (first :: more).map (Padded.chars Path.chars), ',' ∉ x :=
        List.forall_mem_map.2 fun q hq => not_mem_path (hl q hq) (by decide) (by decide) (by decide)
      rw [hblank, if_neg (by simp), hbody, Listing.chars, NameList.trailing_eq]
      exact (read_paths hno).2 ⟨first, more, hl, rfl, rfl, hls⟩

/-! ## Statements -/

theorem not_mem_inputs {minLength : Nat} {l : Listing (List Char)}
    (h : l.Valid (InputName minLength)) : '\x7d' ∉ l.chars id :=
  Listing.not_mem h (by decide) (by decide) fun _ hp =>
    NameList.not_mem_item hp.optional (by decide) (by decide) (by decide)

theorem not_mem_outputs {l : Listing Path} (h : l.Valid Path.Valid) :
    '\x7d' ∉ l.chars Path.chars :=
  Listing.not_mem h (by decide) (by decide) fun _ hp =>
    not_mem_path hp (by decide) (by decide) (by decide)

theorem isTermPart_class {cs : List Char} :
    (∀ x ∈ cs, (Kind.ofChar x).isTermPart = true) ↔ Text.TermText cs :=
  forall₂_congr fun _ _ => Kind.isTermPart_ofChar

theorem all_isParen (start : Nat) (cs : List Char) :
    (Token.ofText start cs).all Token.isParen = true ↔ Text.Parens cs := by
  have h : (Token.ofText start cs).all Token.isParen = _ := Token.all_ofText Kind.isParen start cs
  rw [h, List.all_eq_true, Token.isParen_class]

theorem takeWhile_termPart {term : List Char} (h : Text.TermText term) (start : Nat)
    (cs : List Char) : (Token.ofText start (term ++ ';' :: cs)).takeWhile Token.isTermPart =
      Token.ofText start term :=
  Token.takeWhile_ofText (isTermPart_class.2 h) (by rintro x ⟨⟩; rfl) start

theorem semicolon_after_parens {parens : List Char} (h : Text.Parens parens) (start : Nat)
    (cs : List Char) :
    Token.take? .semicolon ((Token.ofText start (parens ++ ';' :: cs)).dropWhile Token.isParen) =
      some (⟨.semicolon, .ofList [';'], start + Text.width parens⟩,
        Token.ofText (start + Text.width parens + 1) cs) :=
  Token.take?_dropWhile_ofText rfl rfl (Token.isParen_class.2 h) start cs

theorem semicolon_after_term {term : List Char} (h : Text.TermText term) (start : Nat)
    (cs : List Char) :
    Token.take? .semicolon ((Token.ofText start (term ++ ';' :: cs)).dropWhile Token.isTermPart) =
      some (⟨.semicolon, .ofList [';'], start + Text.width term⟩,
        Token.ofText (start + Text.width term + 1) cs) :=
  Token.take?_dropWhile_ofText rfl rfl (isTermPart_class.2 h) start cs

theorem chars_eq (a : Layout.Assignment) : a.chars = assignmentKeyword.toList ++ '(' ::
    (a.parens₁ ++ '\x7b' :: (a.inputs.chars id ++ '\x7d' ::
      (a.parens₂ ++ ';' :: (a.term ++ ';' ::
        (a.parens₃ ++ '\x7b' :: (a.outputs.chars Path.chars ++ '\x7d' :: a.parens₄)))))) := rfl

theorem layout_of_parse? {minLength : Nat} {line : String} {a : Assignment}
    (h : parse? minLength line = some a) : ∃ l : Layout.Assignment, l.Valid minLength ∧
      line.toList = l.chars ∧ a = l.value := by
  have hopen : Kind.openParen.char? = some '(' := rfl
  have hsemi : Kind.semicolon.char? = some ';' := rfl
  simp only [parse?, Token.ofLine_eq, bind, Option.bind_eq_some_iff, Prod.exists] at h
  obtain ⟨ts, h1, t, ts, h2, inputList, ts, h3, inputs, h4, before, ts, h5, after, ts, h6,
    outputList, ts, h7, outputs, h8, h9⟩ := h
  have hkey : Text.width assignmentKeyword.toList = 10 := rfl
  obtain ⟨cs, hline, -, hts⟩ := (Token.takeWord?_eq_some_iff (by decide)).1 h1
  rw [hkey, Nat.zero_add] at hts
  subst hts
  obtain ⟨cs, rfl, -, rfl⟩ := (Token.take?_eq_some_iff hopen).1 h2
  obtain ⟨p1, body, cs, hp1, rfl, -, rfl, rfl⟩ := Token.takeBraced?_dropWhile_eq_some_iff.1 h3
  obtain ⟨i, hi, rfl, rfl⟩ := readInputs_eq_some_iff.1 h4
  obtain ⟨p2, cs, hp2, rfl, rfl, rfl⟩ :=
    (Token.take?_dropWhile_eq_some_iff hsemi (p := Kind.isParen) rfl).1 h5
  obtain ⟨term, cs, hterm, rfl, rfl, rfl⟩ :=
    (Token.take?_dropWhile_eq_some_iff hsemi (p := Kind.isTermPart) rfl).1 h6
  obtain ⟨p3, body, cs, hp3, rfl, -, rfl, rfl⟩ := Token.takeBraced?_dropWhile_eq_some_iff.1 h7
  obtain ⟨o, ho, rfl, rfl⟩ := readOutputs_eq_some_iff.1 h8
  split at h9
  · rename_i hend
    refine ⟨⟨p1, i, p2, term, p3, o, cs⟩, ⟨hp1, hi, Token.isParen_class.1 hp2,
      isTermPart_class.1 hterm, hp3, ho, (all_isParen _ cs).1 hend⟩, hline, ?_⟩
    rw [← Option.some.inj h9]
    rw [takeWhile_termPart (isTermPart_class.1 hterm), Token.textOf_ofText, Token.stop_mk,
      Braced.span_ofText, Braced.stop_closing]
    rfl
  · cases h9

/-- What a layout says is read from its line. -/
theorem parse?_layout {minLength : Nat} {line : String} {l : Layout.Assignment}
    (hl : l.Valid minLength) (hline : line.toList = l.chars) :
    parse? minLength line = some l.value := by
  have hopen : Kind.openParen.char? = some '(' := rfl
  have hsemi : Kind.semicolon.char? = some ';' := rfl
  have hkey : Text.width assignmentKeyword.toList = 10 := rfl
  have hin := not_mem_inputs hl.inputs
  have hout := not_mem_outputs hl.outputs
  rw [parse?, Token.ofLine_eq, hline, chars_eq, Token.takeWord?_ofText (by decide) _ (.of_head rfl)]
  simp only [bind, Option.bind_some, Token.take?_ofText hopen, hkey,
    Token.takeBraced?_dropWhile_ofText hl.parens₁ hin,
    readInputs_eq_some_iff.2 ⟨l.inputs, hl.inputs, rfl, rfl⟩, semicolon_after_parens hl.parens₂,
    semicolon_after_term hl.term, takeWhile_termPart hl.term,
    Token.takeBraced?_dropWhile_ofText hl.parens₃ hout,
    readOutputs_eq_some_iff.2 ⟨l.outputs, hl.outputs, rfl, rfl⟩]
  rw [if_pos ((all_isParen _ _).2 hl.parens₄), Token.textOf_ofText, Token.stop_mk,
    Braced.span_ofText, Braced.stop_closing]
  rfl

theorem parse?_eq_some_iff {minLength : Nat} {line : String} {a : Assignment} :
    parse? minLength line = some a ↔ ∃ l : Layout.Assignment, l.Valid minLength ∧
      line.toList = l.chars ∧ a = l.value :=
  ⟨layout_of_parse?, fun ⟨_, hl, hline, ha⟩ => ha ▸ parse?_layout hl hline⟩

end Assignment

end LabelFlow
