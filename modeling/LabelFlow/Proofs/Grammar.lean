import LabelFlow.Proofs.Grouping
import LabelFlow.Proofs.Lexing

/-!
# The grammar of terms

`Term.Derives` is the grammar over tokens:

    disjunction := conjunction ('||' conjunction)*
    conjunction := unary ('&&' unary)*
    unary       := '!' unary | atom
    atom        := TRUE | FALSE | Type '.' Value | '(' disjunction ')'

Both repetitions nest to the left. Blanks may stand around every unit and inside none. Negations and
groups carry the extent of their tokens (`Token.extent`); on tokens that stand in order, as those of
a line do (`Token.inOrder_ofText`), every term does (`Term.Derives.span_eq`).
-/

set_option autoImplicit false

namespace LabelFlow

namespace Token

/-- The tokens that are no blanks. -/
def own (tokens : List Token) : List Token := tokens.filter fun t => !t.isBlank

/-- From the first to the last token that is no blank. -/
def extent (tokens : List Token) : Span :=
  ⟨((own tokens).head?.map start).getD 0, stopOr 0 (own tokens)⟩

/-- No token begins before those in front of it end. -/
def InOrder (tokens : List Token) : Prop := tokens.Pairwise fun t u => t.stop ≤ u.start

theorem start_le_stop (t : Token) : t.start ≤ t.stop := Nat.le_add_right ..

theorem isBlank_iff {t : Token} : t.isBlank = true ↔ t.kind = .blank := by
  rw [isBlank, beq_iff_eq]

@[simp] theorem own_append (a b : List Token) : own (a ++ b) = own a ++ own b :=
  List.filter_append ..

theorem own_cons_blank {t : Token} (h : t.kind = .blank) (ts : List Token) :
    own (t :: ts) = own ts := by
  rw [own, List.filter_cons_of_neg (by rw [isBlank_iff.2 h]; decide)]
  rfl

theorem own_cons {t : Token} (h : t.kind ≠ .blank) (ts : List Token) :
    own (t :: ts) = t :: own ts := by
  rw [own, List.filter_cons_of_pos (by simpa [isBlank] using h)]
  rfl

/-- Tokens in order stay so when some are left out. -/
theorem InOrder.sublist {a b : List Token} (h : a.Sublist b) (hb : InOrder b) : InOrder a :=
  List.Pairwise.sublist h hb

theorem extent_append_blank {t : Token} (h : t.kind = .blank) (ts : List Token) :
    extent (ts ++ [t]) = extent ts := by
  have hown : own (ts ++ [t]) = own ts := by
    rw [own_append, own_cons_blank h]
    exact List.append_nil _
  rw [extent, hown]
  rfl

theorem extent_cons_blank {t : Token} (h : t.kind = .blank) (ts : List Token) :
    extent (t :: ts) = extent ts := by
  rw [extent, own_cons_blank h]
  rfl

theorem extent_single {t : Token} (h : t.kind ≠ .blank) : extent [t] = t.span := by
  rw [extent, own_cons h]
  rfl

/-- The extents of the first and the last part cover the extent of the whole. -/
theorem cover_extent {a m b : List Token} (ha : own a ≠ []) (hb : own b ≠ [])
    (h : InOrder (a ++ (m ++ b))) : (extent a).cover (extent b) = extent (a ++ (m ++ b)) := by
  have horder : InOrder (own a ++ (own m ++ own b)) := by
    have := h.sublist (List.filter_sublist (p := fun t => !t.isBlank))
    simpa [own] using this
  have hbefore : ∀ t ∈ own a, ∀ u ∈ own b, t.stop ≤ u.start := by
    intro t ht u hu
    exact (List.pairwise_append.1 horder).2.2 t ht u (List.mem_append_right _ hu)
  have hx := List.head?_eq_some_head ha
  have hy := List.head?_eq_some_head hb
  have hw := List.getLast?_eq_some_getLast ha
  have hz := List.getLast?_eq_some_getLast hb
  have hhead : (own (a ++ (m ++ b))).head? = some ((own a).head ha) := by
    rw [own_append, List.head?_append, hx]
    rfl
  have hlast : (own (a ++ (m ++ b))).getLast? = some ((own b).getLast hb) := by
    rw [own_append, own_append, List.getLast?_append, List.getLast?_append, hz]
    rfl
  have hstart : ((own a).head ha).start ≤ ((own b).head hb).start :=
    Nat.le_trans (start_le_stop _) (hbefore _ (List.head_mem ha) _ (List.head_mem hb))
  have hstop : ((own a).getLast ha).stop ≤ ((own b).getLast hb).stop :=
    Nat.le_trans (hbefore _ (List.getLast_mem ha) _ (List.getLast_mem hb)) (start_le_stop _)
  simp only [extent, Span.cover, stopOr, hhead, hlast, hx, hy, hw, hz, Option.map_some,
    Option.getD_some, Span.mk.injEq]
  exact ⟨Nat.min_eq_left hstart, Nat.max_eq_right hstop⟩

/-- The tokens of a stretch of text stand in order. -/
theorem inOrder_ofText (start : Nat) (cs : List Char) : InOrder (ofText start cs) := by
  refine ofText_induction (motive := fun _ _ ts => InOrder ts) (fun _ => List.Pairwise.nil) ?_
    start cs
  intro start k x rest _ _ _ _ ih
  refine List.pairwise_cons.2 ⟨fun u hu => ?_, ih⟩
  rw [stop_mk]
  exact (bounds_of_mem_ofText hu).1

/-- So do the tokens of a slice of a line. -/
theorem inOrder_of_infix {tokens : List Token} {line : String} (h : tokens <:+: ofLine line) :
    InOrder tokens :=
  (inOrder_ofText 0 line.toList).sublist h.sublist

end Token

namespace Term

/-- The levels of the grammar, the tightest first. -/
inductive Rank
  | atom | unary | conjunction | disjunction
deriving DecidableEq, Repr

/-- The grammar of terms. -/
inductive Derives : Rank → List Token → Term → Prop
  | before {r : Rank} {t : Token} {ts : List Token} {e : Term} (blank : t.kind = .blank)
      (rest : Derives r ts e) : Derives r (t :: ts) e
  | after {r : Rank} {t : Token} {ts : List Token} {e : Term} (blank : t.kind = .blank)
      (rest : Derives r ts e) : Derives r (ts ++ [t]) e
  | literal {t : Token} {value : Bool} (kind : t.kind = .word)
      (text : Symbol.literalValue? t.text = some value) :
      Derives .atom [t] (.literal value t.span)
  | access {t d v : Token} (labelType : t.kind = .word) (dot : d.kind = .dot)
      (value : v.kind = .word) : Derives .atom [t, d, v] (.access ⟨.ofToken t, .ofToken v⟩)
  | group {o c : Token} {ts : List Token} {e : Term} (opening : o.kind = .openParen)
      (inner : Derives .disjunction ts e) (closing : c.kind = .closeParen) :
      Derives .atom (o :: (ts ++ [c])) (.group e (Token.extent (o :: (ts ++ [c]))))
  | atom {ts : List Token} {e : Term} (only : Derives .atom ts e) : Derives .unary ts e
  | not {t : Token} {ts : List Token} {e : Term} (bang : t.kind = .bang)
      (operand : Derives .unary ts e) :
      Derives .unary (t :: ts) (.not e (Token.extent (t :: ts)))
  | unary {ts : List Token} {e : Term} (only : Derives .unary ts e) : Derives .conjunction ts e
  | and {p q : Token} {ts us : List Token} {lhs rhs : Term} (left : Derives .conjunction ts lhs)
      (first : p.kind = .amp) (second : q.kind = .amp) (right : Derives .unary us rhs) :
      Derives .conjunction (ts ++ p :: q :: us) (.binary .and lhs rhs)
  | conjunction {ts : List Token} {e : Term} (only : Derives .conjunction ts e) :
      Derives .disjunction ts e
  | or {p q : Token} {ts us : List Token} {lhs rhs : Term} (left : Derives .disjunction ts lhs)
      (first : p.kind = .pipe) (second : q.kind = .pipe) (right : Derives .conjunction us rhs) :
      Derives .disjunction (ts ++ p :: q :: us) (.binary .or lhs rhs)

end Term

namespace Connective

/-- The level of a chain of operands. -/
def rank : Connective → Term.Rank
  | .and => .conjunction
  | .or => .disjunction

/-- The level of the operands. -/
def operandRank : Connective → Term.Rank
  | .and => .unary
  | .or => .conjunction

end Connective

namespace Term.Derives

open Token (own extent InOrder cover_extent)

variable {r : Rank} {op : Connective} {ts us : List Token} {e lhs rhs : Term}

/-- An operand alone is a chain. -/
theorem operand (h : Derives op.operandRank ts e) : Derives op.rank ts e := by
  cases op with
  | and => exact .unary h
  | or => exact .conjunction h

/-- A chain goes on with an operand. -/
theorem binary {p q : Token} (left : Derives op.rank ts lhs) (first : p.kind = op.kind)
    (second : q.kind = op.kind) (right : Derives op.operandRank us rhs) :
    Derives op.rank (ts ++ p :: q :: us) (.binary op lhs rhs) := by
  cases op with
  | and => exact left.and first second right
  | or => exact left.or first second right

/-- No term is derived from blanks. -/
theorem own_ne_nil (h : Derives r ts e) : own ts ≠ [] := by
  have hcons : ∀ {t : Token} {us : List Token}, t.kind ≠ .blank → own (t :: us) ≠ [] := by
    intro t us ht
    rw [Token.own_cons ht]
    exact List.cons_ne_nil _ _
  induction h with
  | before blank _ ih => rwa [Token.own_cons_blank blank]
  | after _ _ ih => simp [ih]
  | literal kind => exact hcons (by simp [kind])
  | access labelType => exact hcons (by simp [labelType])
  | group opening => exact hcons (by simp [opening])
  | not bang => exact hcons (by simp [bang])
  | atom _ ih | unary _ ih | conjunction _ ih => exact ih
  | and _ _ _ _ ih | or _ _ _ _ ih => simp [ih]

/-- A term takes up the extent of its tokens. -/
theorem span_eq (h : Derives r ts e) (ho : InOrder ts) : e.span = extent ts := by
  induction h with
  | before blank _ ih =>
    rw [Token.extent_cons_blank blank]
    exact ih (ho.sublist (List.sublist_cons_self _ _))
  | after blank _ ih =>
    rw [Token.extent_append_blank blank]
    exact ih (ho.sublist (List.sublist_append_left _ _))
  | literal kind => exact (Token.extent_single (by simp [kind])).symm
  | @access t d v labelType dot value =>
    have ht : extent [t] = t.span := Token.extent_single (by simp [labelType])
    have hv : extent [v] = v.span := Token.extent_single (by simp [value])
    have hcover := cover_extent (a := [t]) (m := [d]) (b := [v])
      (by rw [Token.own_cons (by simp [labelType])]; nofun)
      (by rw [Token.own_cons (by simp [value])]; nofun) ho
    rw [ht, hv] at hcover
    exact hcover
  | group | not => rfl
  | atom _ ih | unary _ ih | conjunction _ ih => exact ih ho
  | @and p q ts us lhs rhs left _ _ right ihl ihr | @or p q ts us lhs rhs left _ _ right ihl ihr =>
    have hl := ihl (ho.sublist (List.sublist_append_left _ _))
    have hr := ihr (ho.sublist (List.sublist_append_of_sublist_right
      ((List.sublist_cons_self _ _).trans (List.sublist_cons_self _ _))))
    rw [Term.span, hl, hr]
    exact cover_extent (m := [p, q]) left.own_ne_nil right.own_ne_nil ho

/-- A negation reaches from its sign to the end of its operand. -/
theorem extent_not {t : Token} (bang : t.kind = .bang) (h : Derives r ts e)
    (ho : InOrder (t :: ts)) : extent (t :: ts) = t.span.cover e.span := by
  have hcover := cover_extent (a := [t]) (m := []) (b := ts)
    (by rw [Token.own_cons (by simp [bang])]; nofun) h.own_ne_nil ho
  rw [Token.extent_single (by simp [bang]),
    ← h.span_eq (ho.sublist (List.sublist_cons_self _ _))] at hcover
  exact hcover.symm

/-- A group reaches from its opening to its closing parenthesis. -/
theorem extent_group {o c : Token} (opening : o.kind = .openParen) (closing : c.kind = .closeParen)
    (ho : InOrder (o :: (ts ++ [c]))) : extent (o :: (ts ++ [c])) = o.span.cover c.span := by
  have hcover := cover_extent (a := [o]) (m := ts) (b := [c])
    (by rw [Token.own_cons (by simp [opening])]; nofun)
    (by rw [Token.own_cons (by simp [closing])]; nofun) ho
  rw [Token.extent_single (by simp [opening]), Token.extent_single (by simp [closing])] at hcover
  exact hcover.symm

end Term.Derives

end LabelFlow
