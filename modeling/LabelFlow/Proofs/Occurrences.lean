import LabelFlow.Proofs.Distinctness

/-!
# All occurrences of a name

The search for a name in a region of a statement finds the names that the statement was read with,
each at its own place, and finds nothing else (`search_exact`). The search in a stretch of text is
the search in its parts where a token divides them that no occurrence looks at
(`Token.startsOf_ofText_append`), so it goes over the parts of a statement one by one: units of a
term, items of a list and segments of a path.
-/

set_option autoImplicit false

namespace LabelFlow

open Text Layout

/-- The names with a text. -/
def Name.withText (ns : List Name) (text : String) : List Name := ns.filter fun n => n.text == text

/-- Where the names with a text start. -/
def Name.startsOf (ns : List Name) (text : String) : List Nat :=
  (withText ns text).map fun n => n.span.start

/-- A search finds exactly the names of a list that have the text: it gives where they start, in
ascending order, and their places are those of the names. -/
structure Token.Finds (tokens : List Token) (name : String) (surrounding : Surrounding)
    (ns : List Name) : Prop where
  starts : startsOf tokens name surrounding = Name.startsOf ns name
  ascending : (startsOf tokens name surrounding).Pairwise (· < ·)
  places : placesOf tokens name surrounding = (Name.withText ns name).map Name.span

/-- The first place where a name is found is that of the first name with this text. -/
theorem Token.Finds.firstPlaceOf {tokens : List Token} {name : String} {ns : List Name}
    (h : Finds tokens name .identifier ns) :
    Token.firstPlaceOf tokens name = (Name.withText ns name).head?.map Name.span := by
  rw [Token.firstPlaceOf, h.places, List.head?_map]

namespace OutputLabel

/-- The names of a label that another segment follows. -/
def followed (l : OutputLabel) : List Name :=
  (l.labelType :: (if l.extra = [] then [] else l.value.toList)) ++ l.extra.dropLast

/-- The names of a label behind its dots. -/
def behind (l : OutputLabel) : List Name := l.value.toList ++ l.extra

end OutputLabel

/-! ## Names with a text -/

namespace Name

theorem startsOf_append (a b : List Name) (text : String) :
    startsOf (a ++ b) text = startsOf a text ++ startsOf b text := by
  rw [startsOf, withText, List.filter_append, List.map_append]
  rfl

theorem startsOf_cons (n : Name) (ns : List Name) (text : String) :
    startsOf (n :: ns) text =
      (if n.text = text then [n.span.start] else []) ++ startsOf ns text := by
  by_cases h : n.text = text <;> simp [startsOf, withText, h]

/-- An absent name has no text to search for. -/
theorem startsOf_cons_absent {text : String} (htext : text ≠ "") (offset : Nat) (ns : List Name) :
    startsOf (.spelled offset [] :: ns) text = startsOf ns text := by
  rw [startsOf_cons, if_neg fun h => htext h.symm, List.nil_append]

end Name

/-! ## Dividing a search -/

/-- A token of this kind is no part of an occurrence and does not stand beside one. -/
def Surrounding.ignores : Surrounding → Kind → Bool
  | .identifier, k => !k.isIdentPart
  | _, k => k != .word && k != .dot

namespace Token

variable {name : String} {surrounding : Surrounding}

theorem neighbours_cons_cons (t u : Token) (ts : List Token) :
    neighbours (t :: u :: ts) = (t, u) :: neighbours (u :: ts) := rfl

/-- Neighbours of a token that count for nothing divide a list. -/
theorem filterMap_neighbours_append {f : Token × Token → Option Nat} {s : Token}
    (hleft : ∀ t, f (t, s) = none) (hright : ∀ t, f (s, t) = none) (l r : List Token) :
    (neighbours (l ++ s :: r)).filterMap f =
      (neighbours l).filterMap f ++ (neighbours r).filterMap f := by
  induction l with
  | nil =>
    cases r with
    | nil => rfl
    | cons u r =>
      rw [List.nil_append, neighbours_cons_cons, List.filterMap_cons_none (hright u)]
      rfl
  | cons x l ih =>
    cases l with
    | nil =>
      rw [List.cons_append, List.nil_append, neighbours_cons_cons,
        List.filterMap_cons_none (hleft x)]
      exact ih
    | cons y l =>
      rw [List.cons_append, List.cons_append, neighbours_cons_cons, neighbours_cons_cons,
        List.filterMap_cons, List.filterMap_cons]
      rw [List.cons_append] at ih
      rw [ih]
      cases f (x, y) <;> rfl

/-- A token that is ignored divides a search. -/
theorem startsOf_append_cons {s : Token} (hs : surrounding.ignores s.kind = true)
    (l r : List Token) : startsOf (l ++ s :: r) name surrounding =
      startsOf l name surrounding ++ startsOf r name surrounding := by
  have hkind : ∀ {b : Surrounding}, b ≠ .identifier → b.ignores s.kind = true →
      s.kind ≠ .word ∧ s.kind ≠ .dot := by
    intro b hb h
    cases b with
    | identifier => exact absurd rfl hb
    | beforeDot | afterDot => simpa [Surrounding.ignores] using h
  cases surrounding with
  | identifier =>
    have hcut := Pieces.stretches_cut_append (p := fun t : Token => !t.isIdentPart) hs l r
    rw [startsOf, identifierRuns, hcut, List.filterMap_append]
    rfl
  | beforeDot =>
    obtain ⟨hword, hdot⟩ := hkind (by simp) hs
    exact filterMap_neighbours_append (fun t => by simp [hdot]) (fun t => by simp [hword]) l r
  | afterDot =>
    obtain ⟨hword, hdot⟩ := hkind (by simp) hs
    exact filterMap_neighbours_append (fun t => by simp [hword]) (fun t => by simp [hdot]) l r

@[simp] theorem startsOf_nil : startsOf [] name surrounding = [] := by
  cases surrounding <;> rfl

theorem startsOf_cons {s : Token} (hs : surrounding.ignores s.kind = true) (ts : List Token) :
    startsOf (s :: ts) name surrounding = startsOf ts name surrounding := by
  have h : startsOf ([] ++ s :: ts) name surrounding = _ := startsOf_append_cons hs [] ts
  rwa [startsOf_nil, List.nil_append, List.nil_append] at h

theorem startsOf_skip {a : List Token} (ha : ∀ t ∈ a, surrounding.ignores t.kind = true)
    (b : List Token) : startsOf (a ++ b) name surrounding = startsOf b name surrounding := by
  induction a with
  | nil => rfl
  | cons t a ih =>
    obtain ⟨ht, ha⟩ := List.forall_mem_cons.1 ha
    rw [List.cons_append, startsOf_cons ht, ih ha]

/-- A search in two stretches is one in each, if the second begins with what is ignored. -/
theorem startsOf_ofText_append {start : Nat} {a b : List Char} (hap : Apart a b)
    (hb : ∀ c ∈ b.head?, surrounding.ignores (.ofChar c) = true) :
    startsOf (ofText start (a ++ b)) name surrounding =
      startsOf (ofText start a) name surrounding ++
      startsOf (ofText (start + width a) b) name surrounding := by
  rw [ofText_append start hap]
  have hhead : ∀ t ∈ (ofText (start + width a) b).head?, surrounding.ignores t.kind = true :=
    (forall_head?_ofText (P := fun k => surrounding.ignores k = true)).2 hb
  cases h : ofText (start + width a) b with
  | nil => simp
  | cons t ts =>
    have ht : surrounding.ignores t.kind = true := hhead t (by rw [h]; rfl)
    rw [startsOf_append_cons ht, startsOf_cons ht]

theorem startsOf_ofText_skip {start : Nat} {a b : List Char} (hap : Apart a b)
    (ha : ∀ c ∈ a, surrounding.ignores (.ofChar c) = true) :
    startsOf (ofText start (a ++ b)) name surrounding =
      startsOf (ofText (start + width a) b) name surrounding := by
  rw [ofText_append start hap]
  refine startsOf_skip (fun t ht => ?_) _
  obtain ⟨c, hc, hk⟩ := exists_of_mem_ofText ht
  rw [hk]
  exact ha c hc

/-- Nothing is found where all is ignored. -/
theorem startsOf_ofText_eq_nil {start : Nat} {a : List Char}
    (ha : ∀ c ∈ a, surrounding.ignores (.ofChar c) = true) :
    startsOf (ofText start a) name surrounding = [] := by
  have h : startsOf (ofText start (a ++ [])) name surrounding = _ :=
    startsOf_ofText_skip (.nil_right a) ha
  rwa [List.append_nil, ofText_nil, startsOf_nil] at h

end Token

theorem Surrounding.ignores_blank (surrounding : Surrounding) {c : Char} (h : isBlank c = true) :
    surrounding.ignores (.ofChar c) = true := by
  rw [Kind.ofChar_eq_blank.2 h]
  cases surrounding <;> rfl

theorem Surrounding.ignores_paren (surrounding : Surrounding) {c : Char} (h : c = '(' ∨ c = ')') :
    surrounding.ignores (.ofChar c) = true := by
  obtain rfl | rfl := h <;> cases surrounding <;> rfl

/-! ## Lists -/

namespace Layout.Listing

variable {α β : Type} {written : α → List Char} {ok : α → Prop} {name : String}
  {surrounding : Surrounding}

/-- The search in a part of a list is that in its core. -/
theorem startsOf_padded {p : Padded α} (hp : p.Valid ok)
    (hcore : written p.core ≠ [] ∧ ∀ c ∈ written p.core, isBlank c = false) (start : Nat) :
    Token.startsOf (Token.ofText start (p.chars written)) name surrounding =
      Token.startsOf (Token.ofText (start + width p.before) (written p.core)) name surrounding := by
  have hblank : ∀ {cs : List Char}, Blank cs → ∀ c ∈ cs, surrounding.ignores (.ofChar c) = true :=
    fun hcs c hc => surrounding.ignores_blank (hcs c hc)
  have hbefore : Apart p.before (written p.core ++ p.after) := by
    obtain ⟨c, cs, hcs⟩ := List.exists_cons_of_ne_nil hcore.1
    refine .of_class (p := (· == .blank)) (fun d hd => ?_) fun d hd => ?_
    · exact (Kind.isBlank_ofChar d).trans (hp.before d hd)
    · rw [hcs] at hd
      cases hd
      exact (Kind.isBlank_ofChar c).trans (hcore.2 c (by simp [hcs]))
  have hafter : Apart (written p.core) p.after := by
    refine .of_class (p := (! · == .blank)) (fun d hd => ?_) fun d hd => ?_
    · rw [Kind.isBlank_ofChar, hcore.2 d hd]
      rfl
    · rw [Kind.isBlank_ofChar, hp.after d (List.mem_of_head? hd)]
      rfl
  rw [Padded.chars, Token.startsOf_ofText_skip hbefore (hblank hp.before),
    Token.startsOf_ofText_append hafter fun c hc => hblank hp.after c (List.mem_of_head? hc),
    Token.startsOf_ofText_eq_nil (hblank hp.after), List.append_nil]

/-- A list goes on with a comma, which no run does. -/
theorem apart_trailing (cs : List Char) (more : List (Padded α)) :
    Apart cs (trailing written more) := by
  cases more with
  | nil => exact .nil_right cs
  | cons p more => exact .of_head rfl

theorem ignores_trailing (surrounding : Surrounding) (more : List (Padded α)) :
    ∀ c ∈ (trailing written more).head?, surrounding.ignores (.ofChar c) = true := by
  intro c hc
  rw [Text.head?_flatMap_cons hc]
  cases surrounding <;> rfl

section
variable {read : Nat → α → β} {names : β → List Name}

/-- The search in the parts behind commas finds the names of their cores. -/
theorem startsOf_trailing {more : List (Padded α)} (hmore : ∀ p ∈ more, p.Valid ok)
    (hcore : ∀ x, ok x → written x ≠ [] ∧ ∀ c ∈ written x, isBlank c = false)
    (hfound : ∀ x, ok x → ∀ start,
      Token.startsOf (Token.ofText start (written x)) name surrounding =
        Name.startsOf (names (read start x)) name) (start : Nat) :
    Token.startsOf (Token.ofText start (trailing written more)) name surrounding =
      Name.startsOf ((Text.placed (Padded.chars written) start more).flatMap fun e =>
        names (read (e.1 + 1 + width e.2.before) e.2.core)) name := by
  induction more generalizing start with
  | nil => exact Token.startsOf_nil
  | cons p more ih =>
    obtain ⟨hp, hmore⟩ := List.forall_mem_cons.1 hmore
    have hcomma : surrounding.ignores .comma = true := by
      cases surrounding <;> rfl
    have hcons : trailing written (p :: more) = ',' :: (p.chars written ++ trailing written more) :=
      rfl
    rw [hcons, Token.ofText_cons (k := .comma) rfl, Token.startsOf_cons hcomma,
      Token.startsOf_ofText_append (apart_trailing _ more) (ignores_trailing surrounding more),
      startsOf_padded hp (hcore _ hp.core), hfound _ hp.core, ih hmore, placed_cons,
      List.flatMap_cons, Name.startsOf_append]

/-- The search in a list finds the names of its cores. -/
theorem startsOf_values {l : Listing α} (hl : l.Valid ok)
    (hcore : ∀ x, ok x → written x ≠ [] ∧ ∀ c ∈ written x, isBlank c = false)
    (hfound : ∀ x, ok x → ∀ start,
      Token.startsOf (Token.ofText start (written x)) name surrounding =
        Name.startsOf (names (read start x)) name) (start : Nat) :
    Token.startsOf (Token.ofText start (l.chars written)) name surrounding =
      Name.startsOf ((l.values written read start).flatMap names) name := by
  cases l with
  | blank cs => exact Token.startsOf_ofText_eq_nil fun c hc => surrounding.ignores_blank (hl c hc)
  | parts first more =>
    obtain ⟨hfirst, hmore⟩ := List.forall_mem_cons.1 hl
    rw [chars,
      Token.startsOf_ofText_append (apart_trailing _ more) (ignores_trailing surrounding more),
      startsOf_padded hfirst (hcore _ hfirst.core), startsOf_trailing hmore hcore hfound,
      hfound _ hfirst.core, values, List.flatMap_cons, List.flatMap_map, Name.startsOf_append]

end

/-- So it is in a list in braces. -/
theorem startsOf_braced (written : α → List Char) (read : Nat → α → β) (names : β → List Name)
    {l : Listing α} (hl : l.Valid ok)
    (hcore : ∀ x, ok x → written x ≠ [] ∧ ∀ c ∈ written x, isBlank c = false)
    (hfound : ∀ x, ok x → ∀ start,
      Token.startsOf (Token.ofText start (written x)) name surrounding =
        Name.startsOf (names (read start x)) name) (start : Nat) :
    Token.startsOf (Token.ofText start ('\x7b' :: (l.chars written ++ ['\x7d']))) name surrounding =
      Name.startsOf ((l.values written read (start + 1)).flatMap names) name := by
  have hopen : surrounding.ignores .openBrace = true := by
    cases surrounding <;> rfl
  have hclose : ∀ c ∈ ['\x7d'], surrounding.ignores (.ofChar c) = true := by
    intro c hc
    rw [List.mem_singleton.1 hc]
    cases surrounding <;> rfl
  rw [Token.ofText_cons (k := .openBrace) rfl, Token.startsOf_cons hopen,
    Token.startsOf_ofText_append (.of_head rfl) fun c hc => hclose c (List.mem_of_head? hc),
    Token.startsOf_ofText_eq_nil hclose, List.append_nil]
  exact startsOf_values hl hcore hfound (start + 1)

end Layout.Listing

/-! ## Names -/

namespace Token

/-- An identifier is found where it stands, if it is the one that is searched for. -/
theorem startsOf_identifier {cs : List Char} (h : Identifier cs) (name : String) (start : Nat) :
    startsOf (ofText start cs) name .identifier = Name.startsOf [.spelled start cs] name := by
  have hparts : ∀ t ∈ ofText start cs, (!t.isIdentPart) = false := by
    intro t ht
    obtain ⟨c, hc, hk⟩ := exists_of_mem_ofText ht
    have hpart : t.kind.isIdentPart = true := by
      rw [hk, Kind.isIdentPart_text]
      exact h.isNamePart c hc
    rw [Token.isIdentPart, hpart]
    rfl
  have hruns : identifierRuns (ofText start cs) = [ofText start cs] :=
    congrArg Pieces.stretches (Pieces.cut_of_forall hparts)
  rw [startsOf, hruns, Name.startsOf_cons, Name.text_spelled]
  by_cases hname : String.ofList cs = name
  · rw [if_pos hname, List.filterMap_cons_some (startIfNamed_ofText.2 ⟨h.ne_nil, hname, rfl⟩)]
    rfl
  · have hno : startIfNamed name (ofText start cs) = none := by
      rw [Option.eq_none_iff_forall_not_mem]
      exact fun o ho => hname (startIfNamed_ofText.1 ho).2.1
    rw [if_neg hname, List.filterMap_cons_none hno]
    rfl

/-! ## Labels -/

section
variable {name : String}

theorem startsOf_beforeDot_cons (t u : Token) (ts : List Token) :
    startsOf (t :: u :: ts) name .beforeDot =
      (if t.kind = .word ∧ t.text = name ∧ u.kind = .dot then [t.start] else []) ++
        startsOf (u :: ts) name .beforeDot := by
  rw [startsOf, neighbours_cons_cons, List.filterMap_cons]
  by_cases h : t.kind = .word ∧ t.text = name ∧ u.kind = .dot <;> simp [h, startsOf]

theorem startsOf_afterDot_cons (t u : Token) (ts : List Token) :
    startsOf (t :: u :: ts) name .afterDot =
      (if t.kind = .dot ∧ u.kind = .word ∧ u.text = name then [u.start] else []) ++
        startsOf (u :: ts) name .afterDot := by
  rw [startsOf, neighbours_cons_cons, List.filterMap_cons]
  by_cases h : t.kind = .dot ∧ u.kind = .word ∧ u.text = name <;> simp [h, startsOf]

/-- A word in front of a dot is found there, a dot is not. -/
theorem startsOf_beforeDot_segment (hname : name ≠ "") {w : List Char} (hw : Wordy w) (start : Nat)
    (cs : List Char) : startsOf (ofText start (w ++ '.' :: cs)) name .beforeDot =
      Name.startsOf [.spelled start w] name ++
        startsOf (ofText (start + width w + 1) cs) name .beforeDot := by
  have hdot : startsOf (ofText (start + width w) ('.' :: cs)) name .beforeDot =
      startsOf (ofText (start + width w + 1) cs) name .beforeDot := by
    rw [ofText_cons (k := .dot) rfl]
    cases ofText (start + width w + 1) cs with
    | nil => rfl
    | cons t ts => exact startsOf_beforeDot_cons ..
  by_cases hnil : w = []
  · subst hnil
    rw [Name.startsOf_cons_absent hname]
    exact hdot
  · rw [ofText_word ⟨hnil, hw⟩ (.of_head rfl)]
    rw [ofText_cons (k := .dot) rfl] at hdot ⊢
    rw [startsOf_beforeDot_cons, hdot, Name.startsOf_cons, Name.text_spelled]
    simp only [true_and, and_true]
    congr 1
    exact (List.append_nil _).symm

/-- A word behind a dot is found there. -/
theorem startsOf_afterDot_segment (hname : name ≠ "") {w cs : List Char} (hw : Wordy w)
    (hcs : ∀ c ∈ cs.head?, isWord c = false) (start : Nat) :
    startsOf (ofText start ('.' :: (w ++ cs))) name .afterDot =
      Name.startsOf [.spelled (start + 1) w] name ++
        startsOf (ofText (start + 1) (w ++ cs)) name .afterDot := by
  rw [ofText_cons (k := .dot) rfl]
  by_cases hnil : w = []
  · subst hnil
    rw [Name.startsOf_cons_absent hname, List.nil_append]
    cases h : ofText (start + 1) cs with
    | nil => rfl
    | cons t ts =>
      have hword : t.kind ≠ .word := by
        intro hk
        obtain ⟨v, rest, rfl, hv, -⟩ := word_of_ofText_eq_cons h hk
        obtain ⟨c, v, rfl⟩ := List.exists_cons_of_ne_nil hv.1
        have := hv.2 c List.mem_cons_self
        rw [hcs c rfl] at this
        cases this
      rw [startsOf_afterDot_cons, if_neg fun h => hword h.2.1]
      rfl
  · have hword : Word w := ⟨hnil, hw⟩
    rw [ofText_word hword (hword.apart_iff.2 hcs), startsOf_afterDot_cons, Name.startsOf_cons,
      Name.text_spelled]
    simp only [true_and]
    congr 1
    exact (List.append_nil _).symm

/-- The segments of a path that another one follows are found in front of a dot. -/
theorem startsOf_beforeDot_segments (hname : name ≠ "") {w : List Char}
    {segments : List (List Char)} (h : ∀ v ∈ w :: segments, Wordy v) (start : Nat) :
    startsOf (ofText start (w ++ dotted segments)) name .beforeDot = Name.startsOf
      (.spelled start w :: Path.names (start + width w) segments).dropLast name := by
  induction segments generalizing w start with
  | nil =>
    obtain ⟨hw, -⟩ := List.forall_mem_cons.1 h
    by_cases hnil : w = []
    · subst hnil
      rfl
    · have hone := ofText_word ⟨hnil, hw⟩ (.nil_right w) start
      rw [dotted, List.flatMap_nil, hone]
      rfl
  | cons v segments ih =>
    obtain ⟨hw, hmore⟩ := List.forall_mem_cons.1 h
    have hcons : dotted (v :: segments) = '.' :: (v ++ dotted segments) := rfl
    rw [hcons, startsOf_beforeDot_segment hname hw, ih hmore, ← Name.startsOf_append]
    rfl

/-- The segments of a path behind its dots are found there. -/
theorem startsOf_afterDot_segments (hname : name ≠ "") {w : List Char} {segments : List (List Char)}
    (h : ∀ v ∈ w :: segments, Wordy v) (start : Nat) :
    startsOf (ofText start (w ++ dotted segments)) name .afterDot =
      Name.startsOf (Path.names (start + width w) segments) name := by
  have hnext : ∀ {segments : List (List Char)},
      ∀ c ∈ (dotted segments).head?, isWord c = false := by
    intro segments c hc
    rw [Text.head?_flatMap_cons hc]
    rfl
  induction segments generalizing w start with
  | nil =>
    obtain ⟨hw, -⟩ := List.forall_mem_cons.1 h
    by_cases hnil : w = []
    · subst hnil
      rfl
    · have hone := ofText_word ⟨hnil, hw⟩ (.nil_right w) start
      rw [dotted, List.flatMap_nil, hone]
      rfl
  | cons v segments ih =>
    obtain ⟨hw, hmore⟩ := List.forall_mem_cons.1 h
    have hv := (List.forall_mem_cons.1 hmore).1
    have hcons : dotted (v :: segments) = '.' :: (v ++ dotted segments) := rfl
    have hnames : Path.names (start + width w) (v :: segments) = .spelled (start + width w + 1) v ::
        Path.names (start + width w + 1 + width v) segments := rfl
    have hrest : startsOf (ofText start (w ++ dotted (v :: segments))) name .afterDot =
        startsOf (ofText (start + width w) (dotted (v :: segments))) name .afterDot := by
      by_cases hnil : w = []
      · subst hnil
        rfl
      · rw [ofText_word ⟨hnil, hw⟩ (apart_dotted w _), hcons, ofText_cons (k := .dot) rfl,
          startsOf_afterDot_cons]
        rfl
    rw [hrest, hcons, startsOf_afterDot_segment hname hv hnext, ih hmore, hnames,
      ← Name.startsOf_append]
    rfl

end

end Token

/-- A label without a value has none to search for. -/
theorem Name.startsOf_value {text : String} (htext : text ≠ "") (offset : Nat) (w : List Char)
    (ns : List Name) :
    startsOf ((if w = [] then none else some (spelled offset w)).toList ++ ns) text =
      startsOf (spelled offset w :: ns) text := by
  by_cases hnil : w = []
  · subst hnil
    exact (startsOf_cons_absent htext offset ns).symm
  · rw [if_neg hnil]
    rfl

namespace Layout.Path

variable {p : Path} {name : String}

theorem startsOf_beforeDot (hp : p.Valid) (hname : name ≠ "") (start : Nat) :
    Token.startsOf (Token.ofText start p.chars) name .beforeDot =
      Name.startsOf (p.label start).followed name := by
  have hall : ∀ w ∈ p.labelType :: p.value :: p.extra, Wordy w :=
    List.forall_mem_cons.2 ⟨hp.labelType.2, hp.segments⟩
  refine (Token.startsOf_beforeDot_segments hname hall start).trans ?_
  obtain ⟨labelType, value, extra⟩ := p
  cases extra with
  | nil => rfl
  | cons v extra =>
    -- the value is followed by the first further segment
    let dot := start + width labelType
    let more := (names (dot + 1 + width value) (v :: extra)).dropLast
    calc Name.startsOf ([.spelled start labelType] ++ .spelled (dot + 1) value :: more) name
      _ = Name.startsOf [.spelled start labelType] name ++ Name.startsOf
            ((if value = [] then none else some (.spelled (dot + 1) value)).toList ++ more)
              name := by
        rw [Name.startsOf_append, Name.startsOf_value hname]
      _ = _ := (Name.startsOf_append ..).symm

theorem startsOf_afterDot (hp : p.Valid) (hname : name ≠ "") (start : Nat) :
    Token.startsOf (Token.ofText start p.chars) name .afterDot =
      Name.startsOf (p.label start).behind name := by
  have hall : ∀ w ∈ p.labelType :: p.value :: p.extra, Wordy w :=
    List.forall_mem_cons.2 ⟨hp.labelType.2, hp.segments⟩
  exact (Token.startsOf_afterDot_segments hname hall start).trans
    (Name.startsOf_value hname _ p.value _).symm

end Layout.Path

/-! ## Terms -/

namespace Symbol.Units

variable {ts : List Token} {as : List Access} {name : String}

/-- No unit begins with a dot. -/
theorem head_ne_dot (h : Units ts as) : ∀ t ∈ ts.head?, t.kind ≠ .dot := by
  obtain ⟨symbols, hforms, -⟩ := h.exists_forms
  exact hforms.head_ne_dot

/-- A word that is the last token of a unit is followed by no dot. -/
theorem startsOf_beforeDot_word (h : Units ts as) (t : Token) :
    Token.startsOf (t :: ts) name .beforeDot = Token.startsOf ts name .beforeDot := by
  cases ts with
  | nil => rfl
  | cons u ts =>
    have hu := h.head_ne_dot u rfl
    rw [Token.startsOf_beforeDot_cons, if_neg fun h => hu h.2.2, List.nil_append]

theorem startsOf_afterDot_word {t : Token} (ht : t.kind ≠ .dot) (ts : List Token) :
    Token.startsOf (t :: ts) name .afterDot = Token.startsOf ts name .afterDot := by
  cases ts with
  | nil => rfl
  | cons u ts => rw [Token.startsOf_afterDot_cons, if_neg fun h => ht h.1, List.nil_append]

/-- The types of the accesses of a term are found in front of their dots. -/
theorem startsOf_beforeDot (h : Units ts as) :
    Token.startsOf ts name .beforeDot = Name.startsOf (as.map Access.labelType) name := by
  induction h with
  | nil => rfl
  | @single t ts as kind _ ih =>
    rw [Token.startsOf_cons, ih]
    obtain hk | hk | hk | hk := kind <;> rw [hk] <;> rfl
  | @double t u ts as kind _ ih =>
    rw [Token.startsOf_cons, Token.startsOf_cons, ih]
    · obtain ⟨-, hk⟩ | ⟨-, hk⟩ := kind <;> rw [hk] <;> rfl
    · obtain ⟨hk, -⟩ | ⟨hk, -⟩ := kind <;> rw [hk] <;> rfl
  | @literal t ts as _ _ rest ih => rw [rest.startsOf_beforeDot_word, ih]
  | @access t d v ts as ht hd hv rest ih =>
    rw [Token.startsOf_beforeDot_cons, Token.startsOf_beforeDot_cons,
      rest.startsOf_beforeDot_word, ih, List.map_cons, Name.startsOf_cons]
    simp only [ht, hd, true_and, and_true, reduceCtorEq, false_and, if_false, List.nil_append]
    rfl

/-- The values of the accesses of a term are found behind their dots. -/
theorem startsOf_afterDot (h : Units ts as) :
    Token.startsOf ts name .afterDot = Name.startsOf (as.map Access.value) name := by
  induction h with
  | nil => rfl
  | @single t ts as kind _ ih =>
    rw [startsOf_afterDot_word, ih]
    obtain hk | hk | hk | hk := kind <;> rw [hk] <;> decide
  | @double t u ts as kind _ ih =>
    rw [startsOf_afterDot_word, startsOf_afterDot_word, ih]
    · obtain ⟨-, hk⟩ | ⟨-, hk⟩ := kind <;> rw [hk] <;> decide
    · obtain ⟨hk, -⟩ | ⟨hk, -⟩ := kind <;> rw [hk] <;> decide
  | @literal t ts as kind _ _ ih => rw [startsOf_afterDot_word (by rw [kind]; decide), ih]
  | @access t d v ts as ht hd hv _ ih =>
    rw [startsOf_afterDot_word (by rw [ht]; decide), Token.startsOf_afterDot_cons,
      startsOf_afterDot_word (by rw [hv]; decide), ih, List.map_cons, Name.startsOf_cons]
    simp only [hd, hv, true_and]
    rfl

end Symbol.Units

/-! ## Statements -/

namespace Layout.Assignment

variable {minLength : Nat} {l : Assignment} {line : String} {accesses : List Access} {name : String}

/-- The search among the tokens of the inputs. -/
theorem startsOf_inputs (hl : l.Valid minLength) (name : String) :
    Token.startsOf (Token.ofText l.inputsOpen l.inputRegion) name .identifier =
      Name.startsOf l.value.inputs name := by
  have hinputs := Listing.startsOf_braced id Name.spelled (fun n => [n]) hl.inputs
    (fun w hw => ⟨hw.1.ne_nil, hw.1.not_blank⟩)
    (fun w hw start => Token.startsOf_identifier hw.1 name start) l.inputsOpen
  rwa [List.flatMap_singleton'] at hinputs

/-- The search among the tokens of the labels is that in the term and in the outputs. -/
theorem startsOf_labels {surrounding : Surrounding} (names : OutputLabel → List Name)
    (hl : l.Valid minLength) (hsemicolon : surrounding.ignores .semicolon = true)
    (hfound : ∀ p, Path.Valid p → ∀ start, Token.startsOf (Token.ofText start p.chars) name
      surrounding = Name.startsOf (names (p.label start)) name) :
    Token.startsOf (Token.ofText l.termStart l.labelRegion) name surrounding =
      Token.startsOf (Token.ofText l.termStart l.term) name surrounding ++
        Name.startsOf (l.value.outputs.flatMap names) name := by
  have hparens : ∀ c ∈ l.parens₃, surrounding.ignores (.ofChar c) = true :=
    fun c hc => surrounding.ignores_paren (hl.parens₃ c hc)
  have hregion : Apart l.parens₃ l.outputRegion := .of_head rfl
  have hnext : ∀ c ∈ (';' :: (l.parens₃ ++ l.outputRegion)).head?,
      surrounding.ignores (.ofChar c) = true := by
    intro c hc
    cases hc
    exact hsemicolon
  have houtputs := Listing.startsOf_braced Path.chars (fun start p => p.label start) names
    hl.outputs (fun p hp => ⟨Path.ne_nil hp, Path.not_blank hp⟩) hfound l.outputsOpen
  rw [labelRegion, Token.startsOf_ofText_append (.of_head rfl) hnext,
    Token.ofText_cons (k := .semicolon) rfl, Token.startsOf_cons hsemicolon,
    Token.startsOf_ofText_skip hregion hparens]
  exact congrArg _ houtputs

end Layout.Assignment

namespace Layout

variable {minLength : Nat} {first : Item} {more : List Item}

/-- The search in a Forwarding statement from the first to the last name. -/
theorem startsOf_spread (h : ∀ p ∈ first :: more, p.Valid (InputName minLength)) (name : String) :
    Token.startsOf (Token.ofText (width (beforeSpread first)) (spread first more)) name
      .identifier = Name.startsOf (nameList 12 first more).names name := by
  have hblank : ∀ {cs : List Char}, Blank cs →
      ∀ c ∈ cs, Surrounding.identifier.ignores (.ofChar c) = true :=
    fun hcs c hc => Surrounding.ignores_blank _ (hcs c hc)
  have hbefore : Apart first.before (spread first more ++ lastAfter first more) := by
    refine .of_class (p := (! ·.isIdentPart)) (fun c hc => ?_) fun c hc => ?_
    · exact hblank (h first List.mem_cons_self).before c hc
    · obtain ⟨d, rest, hd⟩ := List.exists_cons_of_ne_nil (spread_ne_nil h)
      have hhead := head?_spread h
      rw [hd] at hc hhead
      rw [Kind.isIdentPart_text, hhead c hc]
      rfl
  have hafter : Apart (spread first more) (lastAfter first more) := by
    refine .of_ends (p := Kind.isIdentPart) (u := true) (fun c hc => ?_) fun c hc => ?_
    · rw [Kind.isIdentPart_text]
      exact getLast?_spread h c hc
    · rw [Kind.isIdentPart_text]
      exact not_isNamePart_of_isBlank (blank_lastAfter h c (List.mem_of_head? hc))
  have hlist : (Listing.parts first more).Valid (InputName minLength) := h
  have hnames : Token.startsOf (Token.ofText 12 ((Listing.parts first more).chars id)) name
      .identifier = Name.startsOf
        (((Listing.parts first more).values id Name.spelled 12).flatMap fun n => [n]) name :=
    Listing.startsOf_values hlist (fun w hw => ⟨hw.1.ne_nil, hw.1.not_blank⟩)
      (fun w hw start => Token.startsOf_identifier hw.1 name start) 12
  rw [List.flatMap_singleton', ← Listing.names_parts h, Listing.chars, chars_eq_spread,
    Token.startsOf_ofText_skip hbefore (hblank (h first List.mem_cons_self).before),
    Token.startsOf_ofText_append hafter fun c hc =>
      hblank (blank_lastAfter h) c (List.mem_of_head? hc),
    Token.startsOf_ofText_eq_nil (hblank (blank_lastAfter h)), List.append_nil] at hnames
  rwa [width_beforeSpread]

end Layout

namespace Name

/-- A name stands on as many bytes as it has. -/
def Fits (n : Name) : Prop := n.span.stop = n.span.start + width n.text.toList

theorem fits_of_covers {n : Name} {line : List Char} (h : n.span.Covers line n.text.toList) :
    n.Fits := by
  obtain ⟨before, after, -, hspan⟩ := h
  rw [Fits, hspan]

end Name

/-- It is enough that the starts are found, the places follow. -/
theorem Token.Finds.of_starts {line : String} {s : Span} {name : String} {surrounding : Surrounding}
    {ns : List Name} (hstarts : startsOf (inside (ofLine line) s) name surrounding =
      Name.startsOf ns name) (hfits : ∀ n ∈ ns, n.Fits) :
    Finds (inside (ofLine line) s) name surrounding ns where
  starts := hstarts
  ascending := startsOf_ascending line s name surrounding
  places := by
    rw [placesOf, hstarts, Name.startsOf, List.map_map]
    refine List.map_congr_left fun n hn => ?_
    obtain ⟨hn, htext⟩ := List.mem_filter.1 hn
    rw [Function.comp_apply, ← beq_iff_eq.1 htext, ← hfits n hn]

namespace OutputLabel

theorem mem_names_of_mem_followed {l : OutputLabel} {n : Name} (h : n ∈ l.followed) :
    n ∈ l.names := by
  rcases List.mem_append.1 h with h | h
  · rcases List.mem_cons.1 h with rfl | h
    · exact List.mem_cons_self
    · split at h
      · cases h
      · exact List.mem_cons_of_mem _ (List.mem_append_left _ h)
  · exact List.mem_cons_of_mem _ (List.mem_append_right _ (List.dropLast_subset _ h))

theorem mem_names_of_mem_behind {l : OutputLabel} {n : Name} (h : n ∈ l.behind) : n ∈ l.names :=
  List.mem_cons_of_mem _ h

end OutputLabel

namespace Layout.Assignment

variable {minLength : Nat} {l : Assignment} {line : String}

theorem fits_names (hl : l.Valid minLength) {n : Name} (h : n ∈ l.value.names) : n.Fits :=
  Name.fits_of_covers (covers_names hl h)

theorem finds_inputs (hl : l.Valid minLength) (hline : line.toList = l.chars) (name : String) :
    Token.Finds (Token.inside (Token.ofLine line) l.value.inputSpan) name .identifier
      l.value.inputs := by
  refine .of_starts ?_ fun n hn => fits_names hl (List.mem_append_left _ hn)
  rw [inside_inputs hline, startsOf_inputs hl]

section
variable {accesses : List Access} {surrounding : Surrounding} {word : String}
  {part : Access → Name} {parts : OutputLabel → List Name}

/-- Where the search finds a part of each access and of each output label, it finds these among the
tokens of the labels. -/
theorem finds_labels (hl : l.Valid minLength) (hline : line.toList = l.chars)
    (hunits : Symbol.Units (Token.ofText l.termStart l.term) accesses)
    (hpart : ∀ a, part a = a.labelType ∨ part a = a.value)
    (hparts : ∀ o, ∀ n ∈ parts o, n ∈ o.names)
    (hsemicolon : surrounding.ignores .semicolon = true)
    (hterm : Token.startsOf (Token.ofText l.termStart l.term) word surrounding =
      Name.startsOf (accesses.map part) word)
    (hpath : ∀ p, Path.Valid p → ∀ start, Token.startsOf (Token.ofText start p.chars) word
      surrounding = Name.startsOf (parts (p.label start)) word) :
    Token.Finds (Token.inside (Token.ofLine line) l.value.labelSpan) word surrounding
      (accesses.map part ++ l.value.outputs.flatMap parts) := by
  refine .of_starts ?_ fun n hn => ?_
  · rw [inside_labels hline, startsOf_labels parts hl hsemicolon hpath, hterm, Name.startsOf_append]
  rcases List.mem_append.1 hn with hn | hn
  · obtain ⟨a, ha, rfl⟩ := List.mem_map.1 hn
    obtain ⟨_, t, _, v, _, -, -, -, -, rfl⟩ := hunits.exists_of_mem ha
    obtain h | h := hpart ⟨.ofToken t, .ofToken v⟩ <;> rw [h] <;> rfl
  · obtain ⟨o, ho, hn⟩ := List.mem_flatMap.1 hn
    exact fits_names hl (List.mem_append_right _ (List.mem_cons_of_mem _
      (List.mem_flatMap.2 ⟨o, ho, hparts o n hn⟩)))

end

end Layout.Assignment

theorem Layout.finds_names {minLength : Nat} {first : Item} {more : List Item} {line : String}
    (h : ∀ p ∈ first :: more, p.Valid (InputName minLength))
    (hline : line.toList = forwarding first more) (name : String) :
    Token.Finds (Token.inside (Token.ofLine line) (nameList 12 first more).span) name .identifier
      (nameList 12 first more).names := by
  refine .of_starts ?_ fun n hn => ?_
  · rw [inside_forwarding h hline, startsOf_spread h]
  · obtain ⟨w, a, b, -, -, -, rfl⟩ := exists_of_mem_names h hn
    rw [Name.Fits, Name.text_spelled, String.toList_ofList]
    rfl

/-- The search finds what was read. Where an Assignment statement is read whose term is made of
symbols, the search for a name in the region of the inputs finds the inputs of that name, and in the
region of the labels the search in front of dots finds the types, and the values and segments that
another segment follows, and the search behind dots finds the values and segments. Where a
Forwarding statement without a missing name is read, the search from its first to its last name
finds the inputs of a name. -/
theorem search_exact (minLength : Nat) (line : String) :
    (∀ a accesses, Assignment.parse? minLength line = some a →
      Access.ofTokens (Token.inside (Token.ofLine line) a.term.span) = .ok accesses →
      (∀ name, Token.Finds (Token.inside (Token.ofLine line) a.inputSpan) name .identifier
        a.inputs) ∧
      ∀ word, word ≠ "" →
        Token.Finds (Token.inside (Token.ofLine line) a.labelSpan) word .beforeDot
          (accesses.map Access.labelType ++ a.outputs.flatMap OutputLabel.followed) ∧
        Token.Finds (Token.inside (Token.ofLine line) a.labelSpan) word .afterDot
          (accesses.map Access.value ++ a.outputs.flatMap OutputLabel.behind)) ∧
    ∀ f, Forwarding.parse? minLength line = some f → f.inputs.names.any Name.isAbsent = false →
      ∀ name, Token.Finds (Token.inside (Token.ofLine line) f.inputs.span) name .identifier
        f.inputs.names := by
  refine ⟨fun a accesses ha haccesses => ?_, fun f hf hany name => ?_⟩
  · obtain ⟨l, hl, hline, rfl⟩ := Assignment.parse?_eq_some_iff.1 ha
    rw [Layout.Assignment.inside_term hline, Access.ofTokens_eq_ok_iff] at haccesses
    refine ⟨Layout.Assignment.finds_inputs hl hline, fun word hne => ⟨?_, ?_⟩⟩
    · exact Layout.Assignment.finds_labels hl hline haccesses (fun _ => .inl rfl)
        (fun _ _ => OutputLabel.mem_names_of_mem_followed) rfl haccesses.startsOf_beforeDot
        fun p hp => Path.startsOf_beforeDot hp hne
    · exact Layout.Assignment.finds_labels hl hline haccesses (fun _ => .inr rfl)
        (fun _ _ => OutputLabel.mem_names_of_mem_behind) rfl haccesses.startsOf_afterDot
        fun p hp => Path.startsOf_afterDot hp hne
  · obtain ⟨first, more, hps, hline, rfl⟩ := Forwarding.parse?_eq_some_iff.1 hf
    exact finds_names ((NameList.inputNames_iff 12).2 ⟨hps, by simp [hany]⟩) hline name

/-- The value of a label stands in front of a dot too, and a second name is a part of the first. -/
theorem search_exact_mixed :
    (let line := "Assignment(\x7bA\x7d;A.b;\x7bA..b,b.A.\x7d)"
     ∃ a accesses, Assignment.parse? 1 line = some a ∧
      Access.ofTokens (Token.inside (Token.ofLine line) a.term.span) = .ok accesses ∧
      Token.Finds (Token.inside (Token.ofLine line) a.labelSpan) "A" .beforeDot
        (accesses.map Access.labelType ++ a.outputs.flatMap OutputLabel.followed) ∧
      Name.startsOf (accesses.map Access.labelType ++ a.outputs.flatMap OutputLabel.followed) "A" =
        [15, 20, 27]) ∧
    (let line := "Forwarding(\x7ba|b, a\x7d)"
     ∃ f, Forwarding.parse? 1 line = some f ∧ f.inputs.names.any Name.isAbsent = false ∧
      Token.placesOf (Token.inside (Token.ofLine line) f.inputs.span) "a" .identifier =
        [⟨17, 18⟩]) := by
  refine ⟨⟨_, _, rfl, rfl, ?_, by decide⟩, _, rfl, by decide, ?_⟩
  · exact (((search_exact 1 _).1 _ _ rfl rfl).2 "A" (by decide)).1
  · exact ((search_exact 1 _).2 _ rfl (by decide) "a").places

end LabelFlow
