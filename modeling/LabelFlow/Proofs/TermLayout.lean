import LabelFlow.Proofs.Derivation
import LabelFlow.Proofs.Search

/-!
# How terms are written

`Term.units` are the units that a term is written with and `Term.Canonical` is the shape of the trees
that the grammar derives. Reading is exact: it accepts what the grammar derives, the tokens of a term
are its units, and a canonical tree that is written with any blanks around its units is read back,
spans aside.
-/

set_option autoImplicit false

namespace LabelFlow

/-- A token without its place. -/
def Token.lexeme (t : Token) : Lexeme := ⟨t.kind, t.text.toList⟩

/-- The lexeme that a connective is written with twice. -/
def Connective.lexeme : Connective → Lexeme
  | .and => ⟨.amp, ['&']⟩
  | .or => ⟨.pipe, ['|']⟩

namespace Term

/-- The word that a literal is written with. -/
def literalWord (value : Bool) : String := if value then "TRUE" else "FALSE"

/-- The units that a term is written with, from left to right. -/
def units : Term → List (List Lexeme)
  | .literal value _ => [[⟨.word, (literalWord value).toList⟩]]
  | .access a =>
    [[⟨.word, a.labelType.text.toList⟩, ⟨.dot, ['.']⟩, ⟨.word, a.value.text.toList⟩]]
  | .not operand _ => [⟨.bang, ['!']⟩] :: operand.units
  | .binary op lhs rhs => lhs.units ++ [op.lexeme, op.lexeme] :: rhs.units
  | .group inner _ => [⟨.openParen, ['(']⟩] :: (inner.units ++ [[⟨.closeParen, [')']⟩]])

/-- A term without its spans. -/
def shape : Term → Term
  | .literal value _ => .literal value (.point 0)
  | .access a => .access ⟨⟨a.labelType.text, .point 0⟩, ⟨a.value.text, .point 0⟩⟩
  | .not operand _ => .not operand.shape (.point 0)
  | .binary op lhs rhs => .binary op lhs.shape rhs.shape
  | .group inner _ => .group inner.shape (.point 0)

/-- The trees of the grammar, whatever their spans. -/
inductive Canonical : Rank → Term → Prop
  | literal (value : Bool) (span : Span) : Canonical .atom (.literal value span)
  | access {a : Access} (labelType : Text.Word a.labelType.text.toList)
      (value : Text.Word a.value.text.toList) : Canonical .atom (.access a)
  | group {e : Term} (inner : Canonical .disjunction e) (span : Span) :
      Canonical .atom (.group e span)
  | atom {e : Term} (only : Canonical .atom e) : Canonical .unary e
  | not {e : Term} (operand : Canonical .unary e) (span : Span) : Canonical .unary (.not e span)
  | unary {e : Term} (only : Canonical .unary e) : Canonical .conjunction e
  | and {lhs rhs : Term} (left : Canonical .conjunction lhs) (right : Canonical .unary rhs) :
      Canonical .conjunction (.binary .and lhs rhs)
  | conjunction {e : Term} (only : Canonical .conjunction e) : Canonical .disjunction e
  | or {lhs rhs : Term} (left : Canonical .disjunction lhs) (right : Canonical .conjunction rhs) :
      Canonical .disjunction (.binary .or lhs rhs)

/-- Units that are written one after the other, with blanks in front of each. -/
inductive Spaced : List (List Lexeme) → List Char → Prop
  | nil : Spaced [] []
  | cons {unit : List Lexeme} {units : List (List Lexeme)} {gap cs : List Char}
      (blank : Text.Blank gap) (rest : Spaced units cs) :
      Spaced (unit :: units) (gap ++ (unit.flatMap Lexeme.text ++ cs))

/-! ## Derived terms -/

theorem literalValue?_eq_some_iff {word : String} {value : Bool} :
    Symbol.literalValue? word = some value ↔ word = literalWord value := by
  unfold Symbol.literalValue? literalWord
  by_cases ht : word = "TRUE"
  · cases value <;> simp [ht]
  · by_cases hf : word = "FALSE" <;> cases value <;> simp [ht, hf]

namespace Derives

variable {r : Rank} {ts : List Token} {e : Term}

/-- What is derived from words is of the shape of the grammar. -/
theorem canonical (h : Derives r ts e)
    (hwords : ∀ t ∈ ts, t.kind = .word → Text.Word t.text.toList) : Canonical r e := by
  induction h with
  | before _ _ ih => exact ih fun t ht => hwords t (List.mem_cons_of_mem _ ht)
  | after _ _ ih => exact ih fun t ht => hwords t (List.mem_append_left _ ht)
  | literal => exact .literal _ _
  | access labelType _ value =>
    exact .access (hwords _ (by simp) labelType) (hwords _ (by simp) value)
  | group _ _ _ ih => exact .group (ih fun t ht => hwords t (by simp [ht])) _
  | atom _ ih => exact .atom (ih hwords)
  | not _ _ ih => exact .not (ih fun t ht => hwords t (List.mem_cons_of_mem _ ht)) _
  | unary _ ih => exact .unary (ih hwords)
  | and _ _ _ _ ihl ihr =>
    exact .and (ihl fun t ht => hwords t (by simp [ht])) (ihr fun t ht => hwords t (by simp [ht]))
  | conjunction _ ih => exact .conjunction (ih hwords)
  | or _ _ _ _ ihl ihr =>
    exact .or (ihl fun t ht => hwords t (by simp [ht])) (ihr fun t ht => hwords t (by simp [ht]))

/-- The tokens of a derived term that are no blanks are its units. -/
theorem own_lexemes (h : Derives r ts e)
    (hpunct : ∀ t ∈ ts, ∀ c, t.kind.char? = some c → t.text.toList = [c]) :
    (Token.own ts).map Token.lexeme = e.units.flatten := by
  induction h with
  | before blank _ ih =>
    rw [Token.own_cons_blank blank]
    exact ih fun t ht => hpunct t (List.mem_cons_of_mem _ ht)
  | after blank _ ih =>
    rw [Token.own_append, Token.own_cons_blank blank]
    simpa [Token.own] using ih fun t ht => hpunct t (List.mem_append_left _ ht)
  | literal kind text =>
    rw [Token.own_cons (by simp [kind])]
    simp [Token.own, Token.lexeme, units, kind, literalValue?_eq_some_iff.1 text]
  | @access t d v labelType dot value =>
    have hd := hpunct d (by simp) _ (by rw [dot]; rfl)
    rw [Token.own_cons (by simp [labelType]), Token.own_cons (by simp [dot]),
      Token.own_cons (by simp [value])]
    simp [Token.own, Token.lexeme, units, Name.ofToken, labelType, dot, value, hd]
  | @group o c ts e opening _ closing ih =>
    have ho := hpunct o (by simp) _ (by rw [opening]; rfl)
    have hc := hpunct c (by simp) _ (by rw [closing]; rfl)
    have hinner := ih fun t ht => hpunct t (by simp [ht])
    rw [Token.own_cons (by simp [opening]), Token.own_append, Token.own_cons (by simp [closing])]
    simpa [Token.own, Token.lexeme, units, opening, closing, ho, hc] using hinner
  | atom _ ih | unary _ ih | conjunction _ ih => exact ih hpunct
  | @not t ts e bang _ ih =>
    have ht := hpunct t (by simp) _ (by rw [bang]; rfl)
    have hoperand := ih fun u hu => hpunct u (List.mem_cons_of_mem _ hu)
    rw [Token.own_cons (by simp [bang])]
    simpa [Token.lexeme, units, bang, ht] using hoperand
  | @and p q ts us _ _ _ first second _ ihl ihr | @or p q ts us _ _ _ first second _ ihl ihr =>
    have hp := hpunct p (by simp) _ (by rw [first]; rfl)
    have hq := hpunct q (by simp) _ (by rw [second]; rfl)
    have hl := ihl fun t ht => hpunct t (by simp [ht])
    have hr := ihr fun t ht => hpunct t (by simp [ht])
    rw [Token.own_append, Token.own_cons (by simp [first]), Token.own_cons (by simp [second])]
    simp [units, Connective.lexeme, Token.lexeme, first, second, hp, hq, ← hl, ← hr]

theorem before_all {bs : List Token} (hbs : ∀ t ∈ bs, t.kind = .blank) (h : Derives r ts e) :
    Derives r (bs ++ ts) e := by
  induction bs with
  | nil => exact h
  | cons t bs ih =>
    obtain ⟨ht, hbs⟩ := List.forall_mem_cons.1 hbs
    exact .before ht (ih hbs)

theorem after_all {bs : List Token} (hbs : ∀ t ∈ bs, t.kind = .blank) (h : Derives r ts e) :
    Derives r (ts ++ bs) e := by
  induction bs generalizing ts with
  | nil => rwa [List.append_nil]
  | cons t bs ih =>
    obtain ⟨ht, hbs⟩ := List.forall_mem_cons.1 hbs
    rw [List.append_cons]
    exact ih hbs (.after ht h)

end Derives

/-! ## Written terms -/

theorem spaced_nil {cs : List Char} (h : Spaced [] cs) : cs = [] := by
  cases h
  rfl

theorem spaced_cons {unit : List Lexeme} {units : List (List Lexeme)} {cs : List Char}
    (h : Spaced (unit :: units) cs) : ∃ gap rest, Text.Blank gap ∧ Spaced units rest ∧
      cs = gap ++ (unit.flatMap Lexeme.text ++ rest) := by
  cases h with
  | cons blank rest => exact ⟨_, _, blank, rest, rfl⟩

theorem spaced_append {us vs : List (List Lexeme)} {cs : List Char} (h : Spaced (us ++ vs) cs) :
    ∃ a b, cs = a ++ b ∧ Spaced us a ∧ Spaced vs b := by
  induction us generalizing cs with
  | nil => exact ⟨[], cs, rfl, .nil, h⟩
  | cons u us ih =>
    obtain ⟨gap, rest, hgap, hrest, rfl⟩ := spaced_cons h
    obtain ⟨a, b, rfl, ha, hb⟩ := ih hrest
    exact ⟨_, b, by simp, .cons hgap ha, hb⟩

/-- The last character is no blank. -/
def Ends (cs : List Char) : Prop := ∃ x, cs.getLast? = some x ∧ Text.isBlank x = false

theorem Ends.append_left {b : List Char} (h : Ends b) (a : List Char) : Ends (a ++ b) := by
  obtain ⟨x, hx, hblank⟩ := h
  exact ⟨x, by rw [List.getLast?_append, hx]; rfl, hblank⟩

theorem ends_word {w : List Char} (h : Text.Word w) : Ends w := by
  have hlast := List.getLast?_eq_some_getLast h.1
  exact ⟨_, hlast, h.2.not_blank _ (List.mem_of_getLast? hlast)⟩

/-- What ends with no blank is apart from what begins with a blank or with punctuation. -/
theorem Ends.apart {a b : List Char} (ha : Ends a)
    (hb : ∀ y ∈ b.head?, Text.isBlank y = true ∨ (Kind.ofChar y).isRun = false) :
    Text.Apart a b := by
  cases b with
  | nil => exact .nil_right a
  | cons y b =>
    obtain hy | hy := hb y rfl
    · obtain ⟨x, hx, hblank⟩ := ha
      refine .of_ends (p := (· == .blank)) (u := false) (fun z hz => ?_) (fun z hz => ?_)
      · rw [hx] at hz
        cases hz
        rw [Kind.isBlank_ofChar, hblank]
      · cases hz
        rw [Kind.isBlank_ofChar, hy]
        rfl
    · exact .of_head hy

/-- What ends with no blank is apart from blanks with punctuation after them. -/
theorem Ends.apart_punct {a gap rest : List Char} {k : Kind} {c : Char} (ha : Ends a)
    (hgap : Text.Blank gap) (hc : k.char? = some c) : Text.Apart a (gap ++ c :: rest) := by
  refine ha.apart fun y hy => ?_
  cases gap with
  | nil =>
    cases hy
    rw [Kind.ofChar_char hc]
    exact .inr (Kind.isRun_of_char hc)
  | cons x gap =>
    cases hy
    exact .inl (hgap _ List.mem_cons_self)

theorem kind_of_gap {gap : List Char} (hgap : Text.Blank gap) {start : Nat} :
    ∀ t ∈ Token.ofText start gap, t.kind = .blank := by
  intro t ht
  obtain ⟨c, hc, hk⟩ := Token.exists_of_mem_ofText ht
  rw [hk]
  exact Kind.ofChar_eq_blank.2 (hgap c hc)

/-- Blanks in front of other characters are tokens of their own. -/
theorem ofText_gap {gap cs : List Char} (hgap : Text.Blank gap)
    (hcs : ∀ c ∈ cs.head?, Text.isBlank c = false) (start : Nat) :
    Token.ofText start (gap ++ cs) =
      Token.ofText start gap ++ Token.ofText (start + Text.width gap) cs := by
  refine Token.ofText_append start (.of_class (p := (· == .blank)) (fun c hc => ?_) fun c hc => ?_)
  · rw [Kind.isBlank_ofChar, hgap c hc]
  · rw [Kind.isBlank_ofChar, hcs c hc]

theorem isBlank_char {k : Kind} {c : Char} (hc : k.char? = some c) : Text.isBlank c = false := by
  cases k <;> simp only [Kind.char?, Option.some.injEq, reduceCtorEq] at hc <;> subst hc <;> rfl

/-- Punctuation behind blanks is a token behind blank tokens. -/
theorem ofText_punct {gap : List Char} {k : Kind} {c : Char} (hgap : Text.Blank gap)
    (hc : k.char? = some c) (start : Nat) (rest : List Char) : ∃ bs t stop,
      Token.ofText start (gap ++ c :: rest) = bs ++ t :: Token.ofText stop rest ∧
        (∀ t ∈ bs, t.kind = .blank) ∧ t.kind = k := by
  have hhead : ∀ x ∈ (c :: rest).head?, Text.isBlank x = false := by
    intro x hx
    cases hx
    exact isBlank_char hc
  rw [ofText_gap hgap hhead, Token.ofText_cons hc]
  exact ⟨_, _, _, rfl, kind_of_gap hgap, rfl⟩

/-- A word behind blanks is a token behind blank tokens. -/
theorem ofText_word {gap w rest : List Char} (hgap : Text.Blank gap) (hw : Text.Word w)
    (hrest : Text.Apart w rest) (start : Nat) : ∃ bs offset stop,
      Token.ofText start (gap ++ (w ++ rest)) =
        bs ++ ⟨.word, .ofList w, offset⟩ :: Token.ofText stop rest ∧
          ∀ t ∈ bs, t.kind = .blank := by
  have hhead : ∀ x ∈ (w ++ rest).head?, Text.isBlank x = false := by
    intro x hx
    obtain ⟨y, w, rfl⟩ := List.exists_cons_of_ne_nil hw.1
    cases hx
    exact hw.2.not_blank x List.mem_cons_self
  rw [ofText_gap hgap hhead, Token.ofText_word hw hrest]
  exact ⟨_, _, _, rfl, kind_of_gap hgap⟩

/-- A connective behind a term and blanks is two tokens. -/
theorem ofText_connective {a gap : List Char} {op : Connective} (ha : Ends a)
    (hgap : Text.Blank gap) (start : Nat) (rest : List Char) : ∃ bs t u stop,
      Token.ofText start (a ++ (gap ++ ([op.lexeme, op.lexeme].flatMap Lexeme.text ++ rest))) =
        Token.ofText start a ++ (bs ++ t :: u :: Token.ofText stop rest) ∧
          (∀ t ∈ bs, t.kind = .blank) ∧ t.kind = op.kind ∧ u.kind = op.kind := by
  obtain ⟨c, hc, htext⟩ : ∃ c, op.kind.char? = some c ∧ op.lexeme.text = [c] := by
    cases op <;> exact ⟨_, rfl, rfl⟩
  have hchars : [op.lexeme, op.lexeme].flatMap Lexeme.text ++ rest = c :: c :: rest := by
    simp [htext]
  rw [hchars]
  obtain ⟨bs, t, stop, heq, hbs, ht⟩ := ofText_punct hgap hc
    (start + Text.width a) (c :: rest)
  rw [Token.ofText_append start (ha.apart_punct hgap hc), heq, Token.ofText_cons hc]
  exact ⟨bs, t, _, _, rfl, hbs, ht, rfl⟩

/-- The tokens of a stretch of text derive a term, spans aside. -/
def Reads (r : Rank) (e : Term) (start : Nat) (cs : List Char) : Prop :=
  Ends cs ∧ ∃ e', Derives r (Token.ofText start cs) e' ∧ e'.shape = e.shape

variable {r : Rank} {e : Term} {start : Nat} {cs : List Char}

theorem reads_literal {value : Bool} {span : Span}
    (hcs : Spaced (units (.literal value span)) cs) : Reads .atom (.literal value span) start cs := by
  obtain ⟨gap, rest, hgap, hrest, rfl⟩ := spaced_cons hcs
  obtain rfl := spaced_nil hrest
  have hw : Text.Word (literalWord value).toList := by cases value <;> decide
  have htext : Symbol.literalValue? (.ofList (literalWord value).toList) = some value :=
    literalValue?_eq_some_iff.2 String.ofList_toList
  obtain ⟨bs, offset, stop, heq, hbs⟩ := ofText_word hgap hw (.nil_right _) start
  rw [List.flatMap_singleton]
  refine ⟨?_, ?_⟩
  · rw [List.append_nil]
    exact (ends_word hw).append_left gap
  · rw [heq]
    exact ⟨_, .before_all hbs (.literal rfl htext), rfl⟩

theorem reads_access {a : Access} (labelType : Text.Word a.labelType.text.toList)
    (value : Text.Word a.value.text.toList) (hcs : Spaced (units (.access a)) cs) :
    Reads .atom (.access a) start cs := by
  obtain ⟨gap, rest, hgap, hrest, rfl⟩ := spaced_cons hcs
  obtain rfl := spaced_nil hrest
  simp only [List.flatMap_cons, List.flatMap_nil, List.append_nil, List.singleton_append]
  obtain ⟨bs, offset, stop, heq, hbs⟩ := ofText_word hgap labelType
    (.of_head (c := '.') (b := a.value.text.toList) rfl) start
  have hvalue := Token.ofText_word value (.nil_right _) (stop + 1)
  rw [List.append_nil] at hvalue
  refine ⟨(((ends_word value).append_left ['.']).append_left _).append_left gap, ?_⟩
  rw [heq, Token.ofText_cons (k := .dot) rfl, hvalue]
  refine ⟨_, .before_all hbs (.access rfl rfl rfl), ?_⟩
  simp [shape, Name.ofToken]

theorem reads_group {span : Span}
    (inner : ∀ {start cs}, Spaced e.units cs → Reads .disjunction e start cs)
    (hcs : Spaced (units (.group e span)) cs) : Reads .atom (.group e span) start cs := by
  obtain ⟨gap, _, hgap, hrest, rfl⟩ := spaced_cons hcs
  obtain ⟨a, _, rfl, ha, hb⟩ := spaced_append hrest
  obtain ⟨gap', _, hgap', hnil, rfl⟩ := spaced_cons hb
  obtain rfl := spaced_nil hnil
  simp only [List.flatMap_cons, List.flatMap_nil, List.append_nil, List.singleton_append]
  obtain ⟨bs, o, offset, heq, hbs, ho⟩ := ofText_punct hgap
    (k := .openParen) rfl start (a ++ (gap' ++ [')']))
  obtain ⟨hends, e', hderives, hshape⟩ := @inner offset a ha
  obtain ⟨bs', c, stop, heq', hbs', hc⟩ := ofText_punct hgap' (k := .closeParen) rfl
    (offset + Text.width a) []
  have hclose : Ends [')'] := ⟨')', rfl, rfl⟩
  have hgroup := Derives.group ho (hderives.after_all hbs') hc
  rw [List.append_assoc] at hgroup
  refine ⟨(((hclose.append_left gap').append_left a).append_left ['(']).append_left gap, ?_⟩
  rw [heq, Token.ofText_append offset (hends.apart_punct hgap' (k := .closeParen) rfl), heq']
  exact ⟨_, .before_all hbs hgroup, by rw [shape, shape, hshape]⟩

theorem reads_not {span : Span}
    (operand : ∀ {start cs}, Spaced e.units cs → Reads .unary e start cs)
    (hcs : Spaced (units (.not e span)) cs) : Reads .unary (.not e span) start cs := by
  obtain ⟨gap, rest, hgap, hrest, rfl⟩ := spaced_cons hcs
  rw [List.flatMap_singleton, List.singleton_append]
  obtain ⟨bs, t, stop, heq, hbs, ht⟩ := ofText_punct hgap (k := .bang) rfl start rest
  obtain ⟨hends, e', hderives, hshape⟩ := @operand stop rest hrest
  refine ⟨(hends.append_left ['!']).append_left gap, ?_⟩
  rw [heq]
  exact ⟨_, .before_all hbs (.not ht hderives), by rw [shape, shape, hshape]⟩

theorem reads_binary {op : Connective} {lhs rhs : Term}
    (left : ∀ {start cs}, Spaced lhs.units cs → Reads op.rank lhs start cs)
    (right : ∀ {start cs}, Spaced rhs.units cs → Reads op.operandRank rhs start cs)
    (hcs : Spaced (units (.binary op lhs rhs)) cs) :
    Reads op.rank (.binary op lhs rhs) start cs := by
  obtain ⟨a, _, rfl, ha, hb⟩ := spaced_append hcs
  obtain ⟨gap, rest, hgap, hrest, rfl⟩ := spaced_cons hb
  obtain ⟨hends, lhs', hlhs, hshapel⟩ := @left start a ha
  obtain ⟨bs, t, u, stop, heq, hbs, ht, hu⟩ := ofText_connective hends hgap start rest
  obtain ⟨hends', rhs', hrhs, hshaper⟩ := @right stop rest hrest
  refine ⟨((hends'.append_left _).append_left gap).append_left a, ?_⟩
  rw [heq, ← List.append_assoc]
  exact ⟨_, (hlhs.after_all hbs).binary ht hu hrhs, by rw [shape, shape, hshapel, hshaper]⟩

/-- A canonical term that is written with blanks around its units is derived from its tokens. -/
theorem Canonical.reads (h : Canonical r e) (hcs : Spaced e.units cs) : Reads r e start cs := by
  have raise : ∀ {r r' : Rank} {e : Term} {start : Nat} {cs : List Char},
      (∀ {ts : List Token} {e : Term}, Derives r ts e → Derives r' ts e) →
        Reads r e start cs → Reads r' e start cs := by
    intro r r' e start cs hraise ⟨hends, e', hderives, hshape⟩
    exact ⟨hends, e', hraise hderives, hshape⟩
  induction h generalizing start cs with
  | literal => exact reads_literal hcs
  | access labelType value => exact reads_access labelType value hcs
  | group _ _ ih => exact reads_group ih hcs
  | atom _ ih => exact raise .atom (ih hcs)
  | not _ _ ih => exact reads_not ih hcs
  | unary _ ih => exact raise .unary (ih hcs)
  | and _ _ ihl ihr => exact @reads_binary start cs .and _ _ ihl ihr hcs
  | conjunction _ ih => exact raise .conjunction (ih hcs)
  | or _ _ ihl ihr => exact @reads_binary start cs .or _ _ ihl ihr hcs

end Term

/-- Reading a term is exact: a slice of the tokens of a line is read exactly as the grammar derives
it, what is read is a canonical tree whose units are the tokens of the slice, blanks aside, and every
canonical tree that is written with any blanks around its units is read back, spans aside. -/
theorem term_parse_exact (e : Term) :
    (∀ (line : String) (tokens : List Token), tokens <:+: Token.ofLine line →
      (Term.parse tokens = .ok e ↔ Term.Derives .disjunction tokens e) ∧
      (Term.parse tokens = .ok e → Term.Canonical .disjunction e ∧
        (Token.own tokens).map Token.lexeme = e.units.flatten)) ∧
    (Term.Canonical .disjunction e → ∀ cs gap : List Char, Term.Spaced e.units cs →
      Text.Blank gap → ∃ e', Term.parse (Token.ofLine (.ofList (cs ++ gap))) = .ok e' ∧
        e'.shape = e.shape) := by
  refine ⟨fun line tokens hslice => ?_, fun hcanonical cs gap hcs hgap => ?_⟩
  · have hread := Term.parse_eq_ok_iff (e := e) (Token.inOrder_of_infix hslice)
    refine ⟨hread, fun h => ⟨?_, ?_⟩⟩
    · exact (hread.1 h).canonical fun t ht => Token.word_of_mem_ofText (hslice.subset ht)
    · refine (hread.1 h).own_lexemes fun t ht c hc => ?_
      rw [Token.text_of_mem_ofText hc (hslice.subset ht) rfl, String.toList_ofList]
  · obtain ⟨hends, e', hderives, hshape⟩ := @hcanonical.reads _ _ 0 cs hcs
    have hapart : Text.Apart cs gap :=
      hends.apart fun y hy => .inl (hgap y (List.mem_of_mem_head? hy))
    refine ⟨e', (Term.parse_eq_ok_iff (Token.inOrder_ofText _ _)).2 ?_, hshape⟩
    rw [String.toList_ofList, Token.ofText_append 0 hapart]
    exact hderives.after_all (Term.kind_of_gap hgap)

/-- A negation, a disjunction and a group, written with and without blanks. -/
theorem term_parse_exact_spaced :
    ∃ e, (Token.ofLine ";!A.b || (TRUE)").tail <:+: Token.ofLine ";!A.b || (TRUE)" ∧
      Term.parse (Token.ofLine ";!A.b || (TRUE)").tail = .ok e ∧
      Term.Derives .disjunction (Token.ofLine ";!A.b || (TRUE)").tail e ∧
      Term.Spaced e.units [' ', '!', ' ', 'A', '.', 'b', '|', '|', '(', ' ', 'T', 'R', 'U', 'E', ')'] ∧
      Text.Blank ['\t'] ∧
      ∃ e', Term.parse (Token.ofLine " ! A.b||( TRUE)\t") = .ok e' ∧ e'.shape = e.shape := by
  obtain ⟨e, he⟩ : ∃ e : Term, e = .binary .or
      (.not (.access ⟨⟨"A", ⟨2, 3⟩⟩, ⟨"b", ⟨4, 5⟩⟩⟩) ⟨1, 5⟩)
      (.group (.literal true ⟨10, 14⟩) ⟨9, 15⟩) := ⟨_, rfl⟩
  obtain ⟨hread, hlaid⟩ := term_parse_exact e
  have hslice := (List.tail_suffix (Token.ofLine ";!A.b || (TRUE)")).isInfix
  have hparse : Term.parse (Token.ofLine ";!A.b || (TRUE)").tail = .ok e := by
    rw [he]
    decide
  have hblank : Text.Blank [' '] := by decide
  have hnone : Text.Blank [] := by decide
  have hspaced : Term.Spaced e.units
      [' ', '!', ' ', 'A', '.', 'b', '|', '|', '(', ' ', 'T', 'R', 'U', 'E', ')'] := by
    rw [he]
    exact .cons hblank (.cons hblank (.cons hnone (.cons hnone (.cons hblank (.cons hnone .nil)))))
  obtain ⟨hiff, hwritten⟩ := hread _ _ hslice
  have htab : Text.Blank ['\t'] := by decide
  have hback := hlaid (hwritten hparse).1 _ ['\t'] hspaced htab
  exact ⟨e, hslice, hparse, hiff.1 hparse, hspaced, htab, hback⟩

end LabelFlow
