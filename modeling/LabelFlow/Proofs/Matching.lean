import LabelFlow.Proofs.Distinctness
import LabelFlow.Proofs.Parens

/-!
# Which parenthesis is blamed

The check of parentheses keeps a count only, yet it blames what has no partner. An opening
parenthesis is closed by the closing one with a nest between them (`Token.AllClosed`), and a closing
one closes nothing if all opening ones before it are closed already (`Token.Unopened`). Parentheses
are well nested exactly if all are closed and none closes nothing (`Token.nest_parens_iff`), which
holds of the tokens before the first one that closes nothing; there the count is zero.
`paren_check_exact`: that token is blamed, or the line if there is none but something is left open.
-/

set_option autoImplicit false

namespace LabelFlow

namespace Text

/-- Behind a nest as many groups are open as before it. -/
theorem Nest.closes_append_iff {a b : List Char} {depth : Nat} (h : Nest a) :
    Closes depth (a ++ b) ↔ Closes depth b := by
  induction h generalizing depth b with
  | nil => rfl
  | group _ _ ihInner ihAfter =>
    rw [List.cons_append, List.append_assoc, List.cons_append, Closes.open_iff, ihInner,
      Closes.close_succ_iff, ihAfter]

end Text

namespace Token

open Text (Nest Closes)

/-! ## Matching parentheses -/

/-- Every opening parenthesis is closed: behind it stand a nest and a closing parenthesis. -/
def AllClosed (ts : List Token) : Prop :=
  ∀ before t rest, ts = before ++ t :: rest → t.kind = .openParen →
    ∃ inner u after, rest = inner ++ u :: after ∧ u.kind = .closeParen ∧ Nest (parens inner)

/-- A closing parenthesis behind tokens among which every opening one is closed already. -/
def Unopened (before : List Token) (t : Token) : Prop := t.kind = .closeParen ∧ AllClosed before

/-- Every closing parenthesis closes something. -/
def NoneUnopened (ts : List Token) : Prop :=
  ∀ before t after, ts = before ++ t :: after → ¬ Unopened before t

/-- The first closing parenthesis that closes nothing, behind the tokens before it. -/
def FirstUnopened (before : List Token) (t : Token) : Prop :=
  Unopened before t ∧ NoneUnopened before

section
variable {a b ts : List Token} {t : Token} {depth : Nat}

/-- The parentheses of the last ones of some tokens close what is open before them. -/
theorem exists_closes_of_append (h : Closes depth (parens (a ++ b))) :
    ∃ d, Closes d (parens b) := by
  induction a generalizing depth with
  | nil => exact ⟨depth, h⟩
  | cons t a ih =>
    rw [List.cons_append] at h
    obtain hopen | hclose | hother := t.paren_cases
    · rw [parens_open hopen, Closes.open_iff] at h
      exact ih h
    · rw [parens_close hclose] at h
      cases depth with
      | zero => exact absurd h Closes.close_zero
      | succ depth => exact ih (Closes.close_succ_iff.1 h)
    · rw [parens_other hother] at h
      exact ih h

/-- A closing parenthesis among the parentheses of tokens is that of a token. -/
theorem exists_of_parens_eq {x y : List Char} (h : parens b = x ++ ')' :: y) :
    ∃ inner u after, b = inner ++ u :: after ∧ u.kind = .closeParen ∧ parens inner = x := by
  obtain ⟨inner, rest, rfl, hinner, hrest⟩ := List.filterMap_eq_append_iff.1 h
  obtain ⟨others, u, after, rfl, hothers, hu, -⟩ := List.filterMap_eq_cons_iff.1 hrest
  refine ⟨inner ++ others, u, after, by rw [List.append_assoc], ?_, ?_⟩
  · cases hk : u.kind <;> rw [hk] at hu <;> first | rfl | simp [Kind.paren?] at hu
  · have hnone : parens others = [] := List.filterMap_eq_nil_iff.2 hothers
    rw [parens_append, hnone, List.append_nil]
    exact hinner

theorem parens_group {u : Token} (ht : t.kind = .openParen) (hu : u.kind = .closeParen)
    (inner after : List Token) : parens (t :: (inner ++ u :: after)) =
      '(' :: (parens inner ++ ')' :: parens after) := by
  rw [parens_open ht, parens_append, parens_close hu]

theorem allClosed_nil : AllClosed [] := fun _ _ _ h => absurd h (by simp)

theorem AllClosed.append (ha : AllClosed a) (hb : AllClosed b) : AllClosed (a ++ b) := by
  intro before t rest h hopen
  obtain ⟨front, rfl, hfront⟩ | ⟨back, rfl, hback⟩ := List.append_eq_append_iff.1 h
  · exact hb front t rest hfront hopen
  · cases back with
    | nil => exact hb [] t rest hback.symm hopen
    | cons u back =>
      obtain ⟨rfl, rfl⟩ := List.cons.inj hback
      obtain ⟨inner, u, after, rfl, hu, hinner⟩ := ha before t back rfl hopen
      exact ⟨inner, u, after ++ b, by simp, hu, hinner⟩

theorem AllClosed.of_append (h : AllClosed (a ++ b)) : AllClosed b := fun before t rest hb =>
  h (a ++ before) t rest (by rw [hb, List.append_assoc])

theorem allClosed_of_not_open (h : t.kind ≠ .openParen) : AllClosed [t] := by
  intro before u rest heq hopen
  cases before with
  | nil =>
    obtain ⟨rfl, -⟩ := List.cons.inj heq
    exact absurd hopen h
  | cons v before => simp at heq

/-- In a nest every parenthesis is closed. -/
theorem allClosed_of_nest (h : Nest (parens ts)) : AllClosed ts := by
  rintro before t rest rfl hopen
  have hcloses : Closes 0 (parens (before ++ t :: rest)) := h
  obtain ⟨depth, hdepth⟩ := exists_closes_of_append hcloses
  rw [parens_open hopen, Closes.open_iff] at hdepth
  obtain ⟨x, y, hx, -, hxy⟩ := hdepth
  obtain ⟨inner, u, after, rfl, hu, rfl⟩ := exists_of_parens_eq hxy
  exact ⟨inner, u, after, rfl, hu, hx⟩

/-- Behind tokens that are all closed, what closes nothing closes nothing among all of them. -/
theorem NoneUnopened.of_append (h : NoneUnopened (a ++ b)) (ha : AllClosed a) : NoneUnopened b :=
  fun before t after hb hun =>
    h (a ++ before) t after (by rw [hb, List.append_assoc]) ⟨hun.1, ha.append hun.2⟩

/-- A group with a nest in it is closed by itself, so the induction goes on behind it. -/
theorem nest_of_allClosed (hclosed : AllClosed ts) (hnone : NoneUnopened ts) :
    Nest (parens ts) := by
  induction hn : ts.length using Nat.strongRecOn generalizing ts with
  | ind n ih =>
  cases ts with
  | nil => exact .nil
  | cons t rest =>
    obtain hopen | hclose | hother := t.paren_cases
    · obtain ⟨inner, u, after, rfl, hu, hinner⟩ := hclosed [] t rest rfl hopen
      have hsplit : t :: (inner ++ u :: after) = t :: (inner ++ [u]) ++ after := by simp
      have hfront : AllClosed (t :: (inner ++ [u])) := by
        apply allClosed_of_nest
        rw [parens_group hopen hu]
        exact .group hinner .nil
      rw [parens_group hopen hu]
      rw [hsplit] at hclosed hnone
      refine .group hinner (ih after.length ?_ hclosed.of_append (hnone.of_append hfront) rfl)
      simp only [← hn, List.length_cons, List.length_append]
      omega
    · exact absurd ⟨hclose, allClosed_nil⟩ (hnone [] t rest rfl)
    · have hfront : AllClosed [t] := allClosed_of_not_open fun h => by rw [h] at hother; cases hother
      rw [← List.singleton_append] at hclosed hnone
      rw [parens_other hother]
      refine ih rest.length ?_ hclosed.of_append (hnone.of_append hfront) rfl
      simp only [← hn, List.length_cons]
      omega

/-- If a parenthesis closes nothing, there is a first one. -/
theorem exists_firstUnopened (h : ¬ NoneUnopened ts) :
    ∃ before t after, ts = before ++ t :: after ∧ FirstUnopened before t := by
  induction hn : ts.length using Nat.strongRecOn generalizing ts with
  | ind n ih =>
  simp only [NoneUnopened, not_forall, not_not] at h
  obtain ⟨before, t, after, rfl, hun⟩ := h
  by_cases hnone : NoneUnopened before
  · exact ⟨before, t, after, rfl, hun, hnone⟩
  · have hless : before.length < n := by
      rw [← hn, List.length_append, List.length_cons]
      omega
    obtain ⟨front, u, back, rfl, hfirst⟩ := ih before.length hless hnone rfl
    exact ⟨front, u, back ++ t :: after, by simp, hfirst⟩

/-- Parentheses are well nested exactly if each has its partner. -/
theorem nest_parens_iff : Nest (parens ts) ↔ NoneUnopened ts ∧ AllClosed ts := by
  refine ⟨fun h => ⟨Classical.byContradiction fun hun => ?_, allClosed_of_nest h⟩,
    fun h => nest_of_allClosed h.2 h.1⟩
  obtain ⟨before, t, after, rfl, ⟨hclose, hclosed⟩, hnone⟩ := exists_firstUnopened hun
  have hbefore := nest_of_allClosed hclosed hnone
  rw [parens_append, parens_close hclose] at h
  exact Closes.close_zero (hbefore.closes_append_iff.1 h)

/-- Before the first parenthesis that closes nothing all parentheses are well nested. -/
theorem firstUnopened_iff {before : List Token} :
    FirstUnopened before t ↔ t.kind = .closeParen ∧ Nest (parens before) := by
  rw [nest_parens_iff, FirstUnopened, Unopened, and_assoc, and_comm (a := AllClosed before)]

end

/-- A token of a line is told by its span. -/
theorem eq_of_span {line : String} {a b a' b' : List Token} {t t' : Token}
    (h : ofLine line = a ++ t :: b) (h' : ofLine line = a' ++ t' :: b') (hspan : t.span = t'.span) :
    a = a' ∧ t = t' := by
  have hstart : t.start = t'.start := congrArg Span.start hspan
  have hmap : a.map start ++ t.start :: b.map start =
      a'.map start ++ t.start :: b'.map start := by
    simpa [hstart] using congrArg (List.map start) (h.symm.trans h')
  have hnodup : ((ofLine line).map start).Nodup := (starts_ofText 0 line.toList).imp Nat.ne_of_lt
  rw [h, List.map_append, List.map_cons, List.nodup_middle, List.nodup_cons, List.mem_append,
    not_or] at hnodup
  have hfront := ((List.append_cons_inj_of_notMem hnodup.1.1 hnodup.1.2).1 hmap).1
  have hlength : a.length = a'.length := by simpa using congrArg List.length hfront
  obtain ⟨ha, htail⟩ := List.append_inj (h.symm.trans h') hlength
  exact ⟨ha, (List.cons.inj htail).1⟩

end Token

/-! ## What the count reports -/

namespace Assignment

open Text (Nest Closes)
open Token (parens AllClosed NoneUnopened FirstUnopened)

section
variable {a b ts : List Token} {depth : Nat} {s : Span}

/-- Behind tokens that close what is open the count begins afresh. -/
theorem parenFinding_append (h : Closes depth (parens a)) :
    parenFinding depth (a ++ b) = parenFinding 0 b := by
  induction a generalizing depth with
  | nil =>
    rw [Closes.nil_iff.1 h]
    rfl
  | cons t a ih =>
    rw [List.cons_append]
    obtain hopen | hclose | hother := t.paren_cases
    · rw [Token.parens_open hopen, Closes.open_iff] at h
      rw [parenFinding_open hopen, ih h]
    · rw [Token.parens_close hclose] at h
      cases depth with
      | zero => exact absurd h Closes.close_zero
      | succ depth => rw [parenFinding_close_succ hclose, ih (Closes.close_succ_iff.1 h)]
    · rw [Token.parens_other hother] at h
      rw [parenFinding_of_not_paren hother, ih h]

/-- A closing parenthesis is blamed where the tokens before it close what is open. -/
theorem exists_of_parenFinding
    (h : parenFinding depth ts = some ⟨.missingOpeningParen, some s⟩) : ∃ before t after,
      ts = before ++ t :: after ∧ t.span = s ∧ t.kind = .closeParen ∧
        Closes depth (parens before) := by
  induction ts generalizing depth with
  | nil =>
    unfold parenFinding at h
    split at h <;> cases h
  | cons u ts ih =>
    obtain hopen | hclose | hother := u.paren_cases
    · rw [parenFinding_open hopen] at h
      obtain ⟨before, t, after, rfl, hspan, hkind, hcloses⟩ := ih h
      refine ⟨u :: before, t, after, rfl, hspan, hkind, ?_⟩
      rwa [Token.parens_open hopen, Closes.open_iff]
    · cases depth with
      | zero =>
        rw [parenFinding_close_zero hclose] at h
        cases h
        exact ⟨[], u, ts, rfl, rfl, hclose, Nest.nil⟩
      | succ depth =>
        rw [parenFinding_close_succ hclose] at h
        obtain ⟨before, t, after, rfl, hspan, hkind, hcloses⟩ := ih h
        refine ⟨u :: before, t, after, rfl, hspan, hkind, ?_⟩
        rwa [Token.parens_close hclose, Closes.close_succ_iff]
    · rw [parenFinding_of_not_paren hother] at h
      obtain ⟨before, t, after, rfl, hspan, hkind, hcloses⟩ := ih h
      refine ⟨u :: before, t, after, rfl, hspan, hkind, ?_⟩
      rwa [Token.parens_other hother]

/-- The parenthesis that is blamed is the first one that closes nothing. -/
theorem parenFinding_eq_opening_iff :
    parenFinding 0 ts = some ⟨.missingOpeningParen, some s⟩ ↔ ∃ before t after,
      ts = before ++ t :: after ∧ t.span = s ∧ FirstUnopened before t := by
  constructor
  · intro h
    obtain ⟨before, t, after, hts, hspan, hfirst⟩ := exists_of_parenFinding h
    exact ⟨before, t, after, hts, hspan, Token.firstUnopened_iff.2 hfirst⟩
  · rintro ⟨before, t, after, rfl, rfl, hfirst⟩
    obtain ⟨hclose, hnest⟩ := Token.firstUnopened_iff.1 hfirst
    have hcloses : Closes 0 (parens before) := hnest
    rw [parenFinding_append hcloses, parenFinding_close_zero hclose]

/-- The line is blamed if no parenthesis is, and one is left open. -/
theorem parenFinding_eq_closing_iff :
    parenFinding 0 ts = some (.wholeLine .missingClosingParen) ↔
      NoneUnopened ts ∧ ¬ AllClosed ts := by
  constructor
  · intro h
    have hnone : NoneUnopened ts := Classical.byContradiction fun hun => by
      obtain ⟨before, t, after, hts, hfirst⟩ := Token.exists_firstUnopened hun
      rw [parenFinding_eq_opening_iff.2 ⟨before, t, after, hts, rfl, hfirst⟩] at h
      cases h
    refine ⟨hnone, fun hclosed => ?_⟩
    have hnest : Closes 0 (parens ts) := Token.nest_parens_iff.2 ⟨hnone, hclosed⟩
    rw [parenFinding_eq_none_iff_closes.2 hnest] at h
    cases h
  · rintro ⟨hnone, hclosed⟩
    cases h : parenFinding 0 ts with
    | none => exact absurd (Token.nest_parens_iff.1 (parenFinding_eq_none_iff_closes.1 h)).2 hclosed
    | some f =>
      obtain rfl | ⟨t, -, -, rfl⟩ := parenFinding_eq_some h
      · rfl
      · obtain ⟨before, u, after, hts, -, hfirst⟩ := parenFinding_eq_opening_iff.1 h
        exact absurd hfirst.1 (hnone before u after hts)

end

/-- The check of a line's parentheses reports a code, at a span or for the whole line. -/
def ReportsParen (line id : String) (span : Option Span) : Prop :=
  ∃ f, parenFinding 0 (Token.ofLine line) = some f ∧ f.problem.code.id = id ∧ f.span = span

theorem reportsParen_opening_iff {line : String} {s : Span} :
    ReportsParen line "BHV1202" (some s) ↔
      parenFinding 0 (Token.ofLine line) = some ⟨.missingOpeningParen, some s⟩ := by
  refine ⟨?_, fun h => ⟨_, h, rfl, rfl⟩⟩
  rintro ⟨f, h, hid, hspan⟩
  obtain rfl | ⟨t, -, -, rfl⟩ := parenFinding_eq_some h
  · cases hspan
  · rw [h, ← hspan]

theorem reportsParen_closing_iff {line : String} :
    ReportsParen line "BHV1203" none ↔
      parenFinding 0 (Token.ofLine line) = some (.wholeLine .missingClosingParen) := by
  refine ⟨?_, fun h => ⟨_, h, rfl, rfl⟩⟩
  rintro ⟨f, h, hid, hspan⟩
  obtain rfl | ⟨t, -, -, rfl⟩ := parenFinding_eq_some h
  · exact h
  · cases hspan

/-- Nothing is reported of a line exactly if its parentheses are well nested. A parenthesis is
blamed exactly if it is the first closing one before which all opening ones are closed, and the line
exactly if there is no such parenthesis and an opening one is not closed. Nothing else is reported,
and no two of these are the case: well nested are the lines of which neither the one nor the other
is. -/
theorem paren_check_exact (line : String) :
    (parenFinding 0 (Token.ofLine line) = none ↔ Nest (parens (Token.ofLine line))) ∧
    (∀ before t after, Token.ofLine line = before ++ t :: after →
      (ReportsParen line "BHV1202" (some t.span) ↔ FirstUnopened before t)) ∧
    (ReportsParen line "BHV1203" none ↔
      NoneUnopened (Token.ofLine line) ∧ ¬ AllClosed (Token.ofLine line)) ∧
    (∀ id span, ReportsParen line id span → id = "BHV1203" ∧ span = none ∨
      id = "BHV1202" ∧ ∃ t ∈ Token.ofLine line, span = some t.span) ∧
    (Nest (parens (Token.ofLine line)) ↔
      NoneUnopened (Token.ofLine line) ∧ AllClosed (Token.ofLine line)) := by
  refine ⟨parenFinding_eq_none_iff_closes, fun before t after hline => ?_, ?_, ?_,
    Token.nest_parens_iff⟩
  · rw [reportsParen_opening_iff, parenFinding_eq_opening_iff]
    refine ⟨?_, fun hfirst => ⟨before, t, after, hline, rfl, hfirst⟩⟩
    rintro ⟨before', t', after', hline', hspan, hfirst⟩
    obtain ⟨rfl, rfl⟩ := Token.eq_of_span hline' hline hspan
    exact hfirst
  · rw [reportsParen_closing_iff, parenFinding_eq_closing_iff]
  · rintro id span ⟨f, h, rfl, rfl⟩
    obtain rfl | ⟨t, ht, -, rfl⟩ := parenFinding_eq_some h
    · exact .inl ⟨rfl, rfl⟩
    · exact .inr ⟨rfl, t, ht, rfl⟩

/-- The second of two parentheses that close nothing is not blamed, nor is the one left open behind
them. -/
theorem paren_check_exact_first : ∃ before t after,
    Token.ofLine "(a))b)(" = before ++ t :: after ∧ FirstUnopened before t ∧ t.start = 3 ∧
    ReportsParen "(a))b)(" "BHV1202" (some t.span) ∧ ¬ ReportsParen "(a))b)(" "BHV1203" none := by
  obtain ⟨-, hopening, hclosing, -⟩ := paren_check_exact "(a))b)("
  have hreported : ReportsParen "(a))b)(" "BHV1202" (some ⟨3, 4⟩) :=
    ⟨⟨.missingOpeningParen, some ⟨3, 4⟩⟩, by decide, rfl, rfl⟩
  have hline : Token.ofLine "(a))b)(" =
      [⟨.openParen, "(", 0⟩, ⟨.word, "a", 1⟩, ⟨.closeParen, ")", 2⟩] ++ ⟨.closeParen, ")", 3⟩ ::
        [⟨.word, "b", 4⟩, ⟨.closeParen, ")", 5⟩, ⟨.openParen, "(", 6⟩] := by decide
  have hfirst := (hopening _ _ _ hline).1 hreported
  refine ⟨_, _, _, hline, hfirst, rfl, hreported, fun h => ?_⟩
  exact (hclosing.1 h).1 _ _ _ hline hfirst.1

end Assignment

end LabelFlow
