import LabelFlow.Proofs.Grammar
import LabelFlow.Proofs.GuardedAssignment

/-!
# Scanning terms with operations that may fail

A term is read by the indices of its tokens, and a label access looks three tokens ahead.
`Guarded.scan` checks the alphabet of a term, and it never fails (`Guarded.scan_eq`): what stands at
an index is the symbol that is read there (`Guarded.symbol_at`, `Guarded.access_at`).
-/

set_option autoImplicit false

namespace LabelFlow.Guarded

/-! ## Tokens by their indices -/

/-- The kind of the token with an index. -/
def kindAt (ts : List Token) (i : Nat) : Option Kind := ts[i]?.map Token.kind

/-- What was expected at an index. -/
def missing (ts : List Token) (expected : Expectation) (i : Nat) : TermFault :=
  ⟨expected, (ts[i]?.map Token.start).getD (Token.stopOr 0 ts)⟩

section
variable {ts : List Token} {i : Nat} {t : Token} {k : Kind}

theorem lt_of_getElem? (h : ts[i]? = some t) : i < ts.length := (List.getElem?_eq_some_iff.1 h).1

theorem exists_of_kindAt (h : kindAt ts i = some k) : ∃ t, ts[i]? = some t ∧ t.kind = k :=
  Option.map_eq_some_iff.1 h

theorem lt_of_kindAt (h : kindAt ts i = some k) : i < ts.length :=
  have ⟨_, ht, _⟩ := exists_of_kindAt h
  lt_of_getElem? ht

theorem kindAt_eq (h : ts[i]? = some t) : kindAt ts i = some t.kind := congrArg _ h

theorem missing_eq (h : ts[i]? = some t) (expected : Expectation) :
    missing ts expected i = ⟨expected, t.start⟩ := by
  rw [missing, h]
  rfl

theorem drop_of_getElem? (h : ts[i]? = some t) : ts.drop i = t :: ts.drop (i + 1) := by
  obtain ⟨hi, rfl⟩ := List.getElem?_eq_some_iff.1 h
  exact List.drop_eq_getElem_cons hi

theorem drop_cases (ts : List Token) (i : Nat) : ts[i]? = none ∧ ts.drop i = [] ∨
    ∃ t, ts[i]? = some t ∧ ts.drop i = t :: ts.drop (i + 1) := by
  cases h : ts[i]? with
  | none => exact .inl ⟨rfl, List.drop_eq_nil_of_le (List.getElem?_eq_none_iff.1 h)⟩
  | some t => exact .inr ⟨t, rfl, drop_of_getElem? h⟩

/-- Nothing behind the last token. -/
theorem missing_end (h : ts[i]? = some t) (hnone : ts[i + 1]? = none) (expected : Expectation) :
    missing ts expected (i + 1) = ⟨expected, t.stop⟩ := by
  obtain ⟨hi, rfl⟩ := List.getElem?_eq_some_iff.1 h
  have hlast : ts.getLast? = some ts[i] := by
    rw [List.getLast?_eq_getElem?]
    have hlength : ts.length - 1 = i := by
      have := List.getElem?_eq_none_iff.1 hnone
      omega
    rw [hlength, List.getElem?_eq_getElem hi]
  rw [missing, hnone, Token.stopOr, hlast]
  rfl

end

/-! ## Symbols at an index -/

/-- A connective is two tokens of its kind. -/
def Doubled (op : Connective) (ts : List Token) (i : Nat) : Prop :=
  kindAt ts i = some op.kind ∧ kindAt ts (i + 1) = some op.kind

instance (op : Connective) (ts : List Token) (i : Nat) : Decidable (Doubled op ts i) :=
  inferInstanceAs (Decidable (_ ∧ _))

/-- The symbol of a token by itself. -/
def single (t : Token) : Symbol :=
  match t.kind with
  | .bang => .bang t.span
  | .openParen => .openParen t.span
  | .closeParen => .closeParen t.span
  | .pipe => .fault ⟨.disjunction, t.start⟩ t.start false
  | .amp => .fault ⟨.conjunction, t.start⟩ t.start false
  | .word => Symbol.ofWord t
  | _ => .fault ⟨.termToken, t.start⟩ t.start false

section
variable {ts : List Token} {i : Nat} {t : Token}

theorem doubled_iff (h : ts[i]? = some t) {op : Connective} :
    Doubled op ts i ↔ t.kind = op.kind ∧ kindAt ts (i + 1) = some op.kind := by
  rw [Doubled, kindAt_eq h, Option.some.injEq]

/-- A connective begins with a token of its kind. -/
theorem not_doubled (h : ts[i]? = some t) (hpipe : t.kind ≠ .pipe) (hamp : t.kind ≠ .amp)
    (op : Connective) : ¬Doubled op ts i := by
  rw [doubled_iff h]
  cases op with
  | and => exact fun hdouble => hamp hdouble.1
  | or => exact fun hdouble => hpipe hdouble.1

theorem read_blank (h : ts[i]? = some t) (hkind : t.kind = .blank) :
    Symbol.read (ts.drop i) = Symbol.read (ts.drop (i + 1)) := by
  rw [drop_of_getElem? h, Symbol.read_blank hkind]

theorem read_doubled (op : Connective) (h : ts[i]? = some t) (hdouble : Doubled op ts i) :
    Symbol.read (ts.drop i) = .connective op t.start :: Symbol.read (ts.drop (i + 2)) := by
  obtain ⟨u, hu, hnext⟩ := exists_of_kindAt hdouble.2
  have hkind : t.kind = op.kind := Option.some.inj ((kindAt_eq h).symm.trans hdouble.1)
  rw [drop_of_getElem? h, drop_of_getElem? hu]
  cases op <;> simp_all [Connective.kind, Symbol.read]

/-- A token that begins no longer symbol is read by itself. -/
theorem read_single (h : ts[i]? = some t) (hblank : t.kind ≠ .blank)
    (hdouble : ∀ op, ¬Doubled op ts i) (hdot : t.kind = .word → kindAt ts (i + 1) ≠ some .dot) :
    Symbol.read (ts.drop i) = single t :: Symbol.read (ts.drop (i + 1)) := by
  have hand := hdouble .and
  have hor := hdouble .or
  rw [Doubled, kindAt_eq h] at hand hor
  cases hkind : t.kind with
  | word =>
    rw [drop_of_getElem? h, Symbol.read_word hkind, single, hkind]
    intro n hn hd
    rw [List.head?_drop] at hn
    exact hdot hkind (hd ▸ kindAt_eq hn)
  | blank => exact absurd hkind hblank
  | pipe | amp =>
    rw [drop_of_getElem? h, Symbol.read.eq_def, single, hkind]
    obtain ⟨hnone, hdrop⟩ | ⟨u, hu, hdrop⟩ := drop_cases ts (i + 1)
    · rw [hdrop]
      simp [hkind, Symbol.read]
    · rw [kindAt_eq hu] at hand hor
      rw [hdrop]
      simp_all [Connective.kind]
  | _ =>
    rw [drop_of_getElem? h, Symbol.read.eq_def, single, hkind]
    simp [hkind]

end

/-! ## Readers of terms -/

/-- A reader whose operations may fail, and which may refuse a term. -/
abbrev TermReader := ExceptT TermFault (Except Misuse)

section
variable {ε α β : Type}

/-- What does not fail, but may be refused. -/
def decided (x : Except ε α) : ExceptT ε (Except Misuse) α := ExceptT.mk (.ok x)

@[simp] theorem lift_bind (x : α) (f : α → ExceptT ε (Except Misuse) β) :
    ((liftM (.ok x : Except Misuse α) : ExceptT ε (Except Misuse) α) >>= f) = f x := rfl

theorem decided_bind {x : Except ε α} {f : α → ExceptT ε (Except Misuse) β} {g : α → Except ε β}
    (h : ∀ a, f a = decided (g a)) : (decided x >>= f) = decided (x >>= g) := by
  cases x with
  | error e => rfl
  | ok a => exact h a

end

/-- A label access: a word, a dot and a word, of which the first two are there. -/
def access (ts : List Token) (i : Nat) : TermReader { _a : Access // i + 3 ≤ ts.length } := do
  let labelType ← token ts i
  let labelType ← spelled labelType
  if h : kindAt ts (i + 2) = some .word then
    let value ← token ts (i + 2)
    let value ← spelled value
    if kindAt ts (i + 3) = some .dot then throw (missing ts .accessEnd (i + 3))
    else pure ⟨⟨labelType, value⟩, lt_of_kindAt h⟩
  else throw (missing ts .labelValue (i + 2))

section
variable {ts : List Token} {i : Nat} {t : Token}

/-- A word with a dot behind it begins a label access or spoils an operand. -/
theorem access_at (h : ts[i]? = some t) (hkind : t.kind = .word)
    (hdot : kindAt ts (i + 1) = some .dot) :
    (∃ a, access ts i = pure a ∧ a.1.labelType.span.start = t.start ∧
      Symbol.read (ts.drop i) = .access a.1 :: Symbol.read (ts.drop (i + 3))) ∨
    ∃ e more, access ts i = throw e ∧
      Symbol.read (ts.drop i) = .fault e t.start true :: more := by
  obtain ⟨d, hd, hdkind⟩ := exists_of_kindAt hdot
  rw [access, token_eq h, drop_of_getElem? h, drop_of_getElem? hd]
  by_cases hvalue : kindAt ts (i + 2) = some .word
  · obtain ⟨v, hv, hvkind⟩ := exists_of_kindAt hvalue
    rw [drop_of_getElem? hv, Symbol.read_access hkind hdkind hvkind, token_eq hv]
    simp only [lift_bind, spelled_eq, dif_pos hvalue]
    obtain ⟨hnone, hdrop⟩ | ⟨n, hn, hdrop⟩ := drop_cases ts (i + 3)
    · have hend : kindAt ts (i + 3) ≠ some .dot := by simp [kindAt, hnone]
      rw [if_neg hend, hdrop]
      exact .inl ⟨_, rfl, rfl, rfl⟩
    · rw [kindAt_eq hn, missing_eq hn, hdrop, Symbol.ofAccess]
      by_cases hthird : n.kind = .dot
      · rw [if_pos hthird, if_pos (congrArg some hthird)]
        exact .inr ⟨_, _, rfl, rfl⟩
      · rw [if_neg hthird, if_neg fun h => hthird (Option.some.inj h)]
        exact .inl ⟨_, rfl, rfl, rfl⟩
  · simp only [lift_bind, spelled_eq, dif_neg hvalue]
    refine .inr ⟨missing ts .labelValue (i + 2), ?_⟩
    rw [Symbol.read.eq_def]
    obtain ⟨hnone, hdrop⟩ | ⟨n, hn, hdrop⟩ := drop_cases ts (i + 2)
    · rw [missing_end hd hnone, hdrop]
      simp [hkind, hdkind]
    · rw [kindAt_eq hn] at hvalue
      rw [missing_eq hn, hdrop]
      have hword : n.kind ≠ .word := fun h => hvalue (congrArg some h)
      simp [hkind, hdkind, hword]

end

/-! ## The alphabet of terms -/

/-- The label accesses from an index on. -/
def scan (ts : List Token) (i : Nat) : TermReader (List Access) :=
  match _h : ts[i]? with
  | none => pure []
  | some t =>
    match t.kind with
    | .blank | .bang | .openParen | .closeParen => scan ts (i + 1)
    | .pipe =>
      if kindAt ts (i + 1) = some .pipe then scan ts (i + 2)
      else throw (missing ts .disjunction i)
    | .amp =>
      if kindAt ts (i + 1) = some .amp then scan ts (i + 2)
      else throw (missing ts .conjunction i)
    | .word =>
      if kindAt ts (i + 1) = some .dot then do
        let found ← access ts i
        let more ← scan ts (i + 3)
        pure (found.1 :: more)
      else if (Symbol.literalValue? t.text).isSome then scan ts (i + 1)
      else throw (missing ts .operandWord i)
    | _ => throw (missing ts .termToken i)
termination_by ts.length - i
decreasing_by
  all_goals
    have hlt := lt_of_getElem? _h
    omega

/-- A term falls into symbols or it does not, and scanning it never fails. -/
theorem scan_eq (ts : List Token) (i : Nat) :
    scan ts i = decided (Symbol.accesses (Symbol.read (ts.drop i))) := by
  fun_induction scan ts i with
  | case1 i h =>
    rw [List.drop_eq_nil_of_le (List.getElem?_eq_none_iff.1 h)]
    rfl
  | case2 i t h hkind ih => rw [ih, read_blank h hkind]
  | case3 i t h hkind ih | case4 i t h hkind ih | case5 i t h hkind ih =>
    have hread : Symbol.read (ts.drop i) = single t :: Symbol.read (ts.drop (i + 1)) :=
      read_single h (by simp [hkind]) (not_doubled h (by simp [hkind]) (by simp [hkind]))
        (by simp [hkind])
    rw [ih, hread, single, hkind]
    rfl
  | case6 i t h hkind hnext ih =>
    rw [ih, read_doubled .or h ((doubled_iff h).2 ⟨hkind, hnext⟩)]
    rfl
  | case8 i t h hkind hnext ih =>
    rw [ih, read_doubled .and h ((doubled_iff h).2 ⟨hkind, hnext⟩)]
    rfl
  | case7 i t h hkind hnext | case9 i t h hkind hnext =>
    have hdouble : ∀ op, ¬Doubled op ts i := by
      intro op
      rw [doubled_iff h]
      cases op <;> simp [hkind, hnext, Connective.kind]
    rw [read_single h (by simp [hkind]) hdouble (by simp [hkind]), single, hkind, missing_eq h]
    rfl
  | case10 i t h hkind hdot ih =>
    obtain ⟨a, ha, -, hread⟩ | ⟨e, more, he, hread⟩ := access_at h hkind hdot
    · rw [ha, pure_bind, ih, hread, Symbol.accesses]
      cases Symbol.accesses (Symbol.read (ts.drop (i + 3))) <;> rfl
    · rw [he, hread]
      rfl
  | case11 i t h hkind hdot hliteral ih =>
    obtain ⟨value, hvalue⟩ := Option.isSome_iff_exists.1 hliteral
    rw [ih, read_single h (by simp [hkind]) (not_doubled h (by simp [hkind]) (by simp [hkind]))
      fun _ => hdot, single, hkind, Symbol.ofWord, hvalue]
    rfl
  | case12 i t h hkind hdot hliteral =>
    rw [read_single h (by simp [hkind]) (not_doubled h (by simp [hkind]) (by simp [hkind]))
      fun _ => hdot, single, hkind, Symbol.ofWord, Option.not_isSome_iff_eq_none.1 hliteral,
      missing_eq h]
    rfl
  | case13 i t h hblank hbang hopen hclose hpipe hamp hword =>
    rw [read_single h hblank (not_doubled h hpipe hamp) (fun hkind => absurd hkind hword), single]
    rw [missing_eq h]
    cases hkind : t.kind <;> first | rfl | exact absurd hkind (by assumption)

end LabelFlow.Guarded
