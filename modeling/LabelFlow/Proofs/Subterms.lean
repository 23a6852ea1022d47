import LabelFlow.Proofs.TermLayout

/-!
# Parts of a term

`subterm_spans_exact`: the tokens inside the span of any part of a term that was read are read as
that part. Every part is derived from some of the tokens (`Term.Derives.exists_slice`), and without
the blanks around it (`Token.Tight`, `Term.Derives.trim`) these are the tokens inside its span
(`Token.inside_extent`).
-/

set_option autoImplicit false

namespace LabelFlow

namespace Term

/-- A term and all the terms in it. -/
def subterms : Term → List Term
  | .literal value span => [.literal value span]
  | .access label => [.access label]
  | .not operand span => .not operand span :: operand.subterms
  | .binary op lhs rhs => .binary op lhs rhs :: (lhs.subterms ++ rhs.subterms)
  | .group inner span => .group inner span :: inner.subterms

end Term

namespace Token

/-- No blank stands at either end. -/
structure Tight (tokens : List Token) : Prop where
  first : ∀ t ∈ tokens.head?, t.kind ≠ .blank
  last : ∀ t ∈ tokens.getLast?, t.kind ≠ .blank

theorem Tight.single {t : Token} (h : t.kind ≠ .blank) : Tight [t] := by
  constructor <;> intro u hu <;> cases hu <;> exact h

/-- Whatever stands between two parts without blanks at their ends. -/
theorem Tight.join {a b : List Token} (ha : Tight a) (hb : Tight b) (hane : a ≠ []) (hbne : b ≠ [])
    (m : List Token) : Tight (a ++ (m ++ b)) where
  first := by
    rw [List.head?_append_of_ne_nil _ hane]
    exact ha.first
  last := by
    rw [← List.append_assoc, List.getLast?_append_of_ne_nil _ hbne]
    exact hb.last

theorem own_eq_nil {b : List Token} (hb : ∀ t ∈ b, t.kind = .blank) : own b = [] :=
  List.filter_eq_nil_iff.2 fun t ht => by simp [isBlank_iff.2 (hb t ht)]

theorem extent_append_blanks (ts : List Token) {b : List Token} (hb : ∀ t ∈ b, t.kind = .blank) :
    extent (ts ++ b) = extent ts := by
  rw [extent, extent, own_append, own_eq_nil hb, List.append_nil]

/-- Without blanks at the ends the extent goes from the first to the last token. -/
theorem Tight.extent_eq {x y : Token} {m : List Token} (h : Tight m) (hx : m.head? = some x)
    (hy : m.getLast? = some y) : extent m = ⟨x.start, y.stop⟩ := by
  obtain ⟨rest, rfl⟩ := List.head?_eq_some_iff.1 hx
  have hhead : (own (x :: rest)).head? = some x := by
    rw [own_cons (h.first x rfl)]
    rfl
  obtain ⟨front, hfront⟩ := List.getLast?_eq_some_iff.1 hy
  have hlast : (own (x :: rest)).getLast? = some y := by
    rw [hfront, own_append, own_cons (h.last y hy)]
    exact List.getLast?_concat
  simp only [extent, stopOr, hhead, hlast, Option.map_some, Option.getD_some]

/-- The tokens inside the extent of a part that has no blanks at its ends are the part. -/
theorem inside_extent {m tokens : List Token} (horder : InOrder tokens)
    (hwide : ∀ t ∈ tokens, t.start < t.stop) (hm : m <:+: tokens) (htight : Tight m)
    (hne : m ≠ []) : inside tokens (extent m) = m := by
  obtain ⟨a, b, rfl⟩ := hm
  rw [List.append_assoc] at horder hwide ⊢
  obtain ⟨x, hx⟩ : ∃ x, m.head? = some x := ⟨_, List.head?_eq_some_head hne⟩
  obtain ⟨y, hy⟩ : ∃ y, m.getLast? = some y := ⟨_, List.getLast?_eq_some_getLast hne⟩
  obtain ⟨-, hright, hbefore⟩ := List.pairwise_append.1 horder
  obtain ⟨hmid, -, hbehind⟩ := List.pairwise_append.1 hright
  have hxm : x ∈ m := List.mem_of_head? hx
  have hym : y ∈ m := List.mem_of_getLast? hy
  have hmiddle : ∀ t ∈ m, t.stop ≤ y.stop := by
    obtain ⟨front, rfl⟩ := List.getLast?_eq_some_iff.1 hy
    intro t ht
    rcases List.mem_append.1 ht with ht | ht
    · have := (List.pairwise_append.1 hmid).2.2 t ht y (List.mem_singleton_self y)
      have := start_le_stop y
      omega
    · exact Nat.le_of_eq (congrArg stop (List.mem_singleton.1 ht))
  rw [htight.extent_eq hx hy, inside, dropWhile_append_stop, takeWhile_append_stop]
  · exact fun t ht => decide_eq_true (hmiddle t ht)
  · intro t ht
    have htb := List.mem_of_head? ht
    have := hbehind y hym t htb
    have := hwide t (by simp [htb])
    exact decide_eq_false (by simp only; omega)
  · intro t ht
    have := hbefore t ht x (by simp [hxm])
    have := hwide t (by simp [ht])
    exact decide_eq_true (by simp only; omega)
  · intro t ht
    rw [List.head?_append_of_ne_nil _ hne, hx] at ht
    obtain rfl := Option.some.inj ht
    exact decide_eq_false (Nat.lt_irrefl _)

end Token

namespace Term.Derives

open Token (Tight InOrder)

variable {r : Rank} {ts : List Token} {e : Term}

/-- What is derived at any rank is a term. -/
theorem disjunction (h : Derives r ts e) : Derives .disjunction ts e := by
  cases r with
  | atom => exact .conjunction (.unary (.atom h))
  | unary => exact .conjunction (.unary h)
  | conjunction => exact .conjunction h
  | disjunction => exact h

theorem ne_nil (h : Derives r ts e) : ts ≠ [] := by
  rintro rfl
  exact h.own_ne_nil rfl

/-- What is left of the tokens without the blanks around them derives a term. -/
def Trimmed (r : Rank) (ts : List Token) (e : Term) : Prop :=
  ∃ a m b, ts = a ++ (m ++ b) ∧ (∀ t ∈ a, t.kind = .blank) ∧ (∀ t ∈ b, t.kind = .blank) ∧
    Tight m ∧ Derives r m e

theorem Trimmed.of_tight (htight : Tight ts) (h : Derives r ts e) : Trimmed r ts e :=
  ⟨[], ts, [], (List.append_nil ts).symm, nofun, nofun, htight, h⟩

theorem Trimmed.raise {r' : Rank} (h : Trimmed r ts e)
    (hraise : ∀ {m : List Token}, Derives r m e → Derives r' m e) : Trimmed r' ts e := by
  obtain ⟨a, m, b, hts, ha, hb, htight, hm⟩ := h
  exact ⟨a, m, b, hts, ha, hb, htight, hraise hm⟩

/-- The blanks between an operator and its operands stay. -/
theorem Trimmed.binary (op : Connective) {us : List Token} {p q : Token} {lhs rhs : Term}
    (left : Trimmed op.rank ts lhs) (first : p.kind = op.kind) (second : q.kind = op.kind)
    (right : Trimmed op.operandRank us rhs) :
    Trimmed op.rank (ts ++ p :: q :: us) (.binary op lhs rhs) := by
  obtain ⟨a, m, b, rfl, ha, hb, htight, hm⟩ := left
  obtain ⟨a', m', b', rfl, ha', hb', htight', hm'⟩ := right
  have hboth := (hm.after_all hb).binary first second (hm'.before_all ha')
  exact ⟨a, m ++ ((b ++ p :: q :: a') ++ m'), b', by simp, ha, hb',
    htight.join htight' hm.ne_nil hm'.ne_nil _, by simpa using hboth⟩

/-- The blanks around a term can be left out. -/
theorem trim (h : Derives r ts e) : Trimmed r ts e := by
  induction h with
  | before blank _ ih =>
    obtain ⟨a, m, b, rfl, ha, hb, htight, hm⟩ := ih
    exact ⟨_ :: a, m, b, rfl, List.forall_mem_cons.2 ⟨blank, ha⟩, hb, htight, hm⟩
  | @after r t ts e blank _ ih =>
    obtain ⟨a, m, b, rfl, ha, hb, htight, hm⟩ := ih
    refine ⟨a, m, b ++ [t], by simp, ha, fun u hu => ?_, htight, hm⟩
    rcases List.mem_append.1 hu with hu | hu
    · exact hb u hu
    · rw [List.mem_singleton.1 hu]
      exact blank
  | literal kind text => exact .of_tight (.single (by simp [kind])) (.literal kind text)
  | @access t d v labelType dot value =>
    have htight := Tight.join (.single (t := t) (by simp [labelType]))
      (.single (t := v) (by simp [value])) (by simp) (by simp) [d]
    exact .of_tight htight (.access labelType dot value)
  | @group o c ts e opening inner closing _ =>
    have htight := Tight.join (.single (t := o) (by simp [opening]))
      (.single (t := c) (by simp [closing])) (by simp) (by simp) ts
    exact .of_tight htight (.group opening inner closing)
  | @not t ts e bang _ ih =>
    -- blanks behind the sign belong to the negation, those behind the operand do not
    obtain ⟨a, m, b, rfl, ha, hb, htight, hm⟩ := ih
    have hnot := Derives.not bang (hm.before_all ha)
    rw [← Token.extent_append_blanks (t :: (a ++ m)) hb] at hnot
    refine ⟨[], t :: (a ++ m), b, by simp, nofun, hb, ?_, by simpa using hnot⟩
    exact Tight.join (.single (t := t) (by simp [bang])) htight (by simp) hm.ne_nil a
  | atom _ ih => exact ih.raise .atom
  | unary _ ih => exact ih.raise .unary
  | conjunction _ ih => exact ih.raise .conjunction
  | and _ first second _ ihl ihr => exact .binary .and ihl first second ihr
  | or _ first second _ ihl ihr => exact .binary .or ihl first second ihr

/-- A part of the tokens, with no blank at its ends, that a term is derived from. -/
def Slice (ts : List Token) (s : Term) : Prop :=
  ∃ m, m <:+: ts ∧ Tight m ∧ Derives .disjunction m s

theorem Slice.mono {us : List Token} {s : Term} (h : Slice ts s) (hts : ts <:+: us) :
    Slice us s := by
  obtain ⟨m, hm, htight, hs⟩ := h
  exact ⟨m, hm.trans hts, htight, hs⟩

theorem slice (h : Derives r ts e) : Slice ts e := by
  obtain ⟨a, m, b, rfl, -, -, htight, hm⟩ := h.trim
  exact ⟨m, ⟨a, b, List.append_assoc ..⟩, htight, hm.disjunction⟩

theorem slice_binary {op : Connective} {us : List Token} {p q : Token} {lhs rhs s : Term}
    (h : Derives r (ts ++ p :: q :: us) (.binary op lhs rhs))
    (left : s ∈ lhs.subterms → Slice ts s) (right : s ∈ rhs.subterms → Slice us s)
    (hs : s ∈ (Term.binary op lhs rhs).subterms) : Slice (ts ++ p :: q :: us) s := by
  rcases List.mem_cons.1 hs with rfl | hs
  · exact h.slice
  rcases List.mem_append.1 hs with hs | hs
  · exact (left hs).mono (List.prefix_append _ _).isInfix
  · exact (right hs).mono ⟨ts ++ [p, q], [], by simp⟩

/-- Every part of a term is derived from a part of its tokens. -/
theorem slice_of_mem {s : Term} (h : Derives r ts e) (hs : s ∈ e.subterms) : Slice ts s := by
  induction h with
  | before _ _ ih => exact (ih hs).mono (List.suffix_cons _ _).isInfix
  | after _ _ ih => exact (ih hs).mono (List.prefix_append _ _).isInfix
  | literal kind text =>
    rw [List.mem_singleton.1 hs]
    exact (Derives.literal kind text).slice
  | access labelType dot value =>
    rw [List.mem_singleton.1 hs]
    exact (Derives.access labelType dot value).slice
  | @group o c ts e opening inner closing ih =>
    rcases List.mem_cons.1 hs with rfl | hs
    · exact (Derives.group opening inner closing).slice
    · exact (ih hs).mono ⟨[o], [c], rfl⟩
  | atom _ ih | unary _ ih | conjunction _ ih => exact ih hs
  | not bang operand ih =>
    rcases List.mem_cons.1 hs with rfl | hs
    · exact (Derives.not bang operand).slice
    · exact (ih hs).mono (List.suffix_cons _ _).isInfix
  | and left first second right ihl ihr =>
    exact slice_binary (left.and first second right) ihl ihr hs
  | or left first second right ihl ihr =>
    exact slice_binary (left.or first second right) ihl ihr hs

end Term.Derives

/-- The span of every part of a term is its own source: where a slice of the tokens of a line is
read as a term, the tokens inside the span of any term in it, itself among them, are read as just
that term, spans included. -/
theorem subterm_spans_exact (line : String) (tokens : List Token)
    (hslice : tokens <:+: Token.ofLine line) (e : Term) (h : Term.parse tokens = .ok e) :
    ∀ s ∈ e.subterms, Term.parse (Token.inside tokens s.span) = .ok s := by
  intro s hs
  have horder := Token.inOrder_of_infix hslice
  have hwide : ∀ t ∈ tokens, t.start < t.stop := fun t ht =>
    (Token.bounds_of_mem_ofText (hslice.subset ht)).2.1
  obtain ⟨m, hm, htight, hderives⟩ := ((Term.parse_eq_ok_iff horder).1 h).slice_of_mem hs
  have hmorder := horder.sublist hm.sublist
  rw [hderives.span_eq hmorder, Token.inside_extent horder hwide hm htight hderives.ne_nil]
  exact (Term.parse_eq_ok_iff hmorder).2 hderives

/-- A negation with blanks behind its sign and around its operand, in a group, behind a disjunction
in the line. -/
theorem subterm_spans_exact_nested :
    ∃ e, ((Token.ofLine "A.b||( ! TRUE )").drop 5) <:+: Token.ofLine "A.b||( ! TRUE )" ∧
      Term.parse ((Token.ofLine "A.b||( ! TRUE )").drop 5) = .ok e ∧
      .not (.literal true ⟨9, 13⟩) ⟨7, 13⟩ ∈ e.subterms ∧
      Term.parse (Token.inside ((Token.ofLine "A.b||( ! TRUE )").drop 5) ⟨7, 13⟩) =
        .ok (.not (.literal true ⟨9, 13⟩) ⟨7, 13⟩) := by
  obtain ⟨e, he⟩ : ∃ e : Term, e = .group (.not (.literal true ⟨9, 13⟩) ⟨7, 13⟩) ⟨5, 15⟩ :=
    ⟨_, rfl⟩
  have hslice := (List.drop_suffix 5 (Token.ofLine "A.b||( ! TRUE )")).isInfix
  have hparse : Term.parse ((Token.ofLine "A.b||( ! TRUE )").drop 5) = .ok e := by
    rw [he]
    decide
  have hmem : .not (.literal true ⟨9, 13⟩) ⟨7, 13⟩ ∈ e.subterms := by
    rw [he]
    decide
  exact ⟨e, hslice, hparse, hmem, subterm_spans_exact _ _ hslice e hparse _ hmem⟩

end LabelFlow
