import LabelFlow.Proofs.Symbols

/-!
# Flat terms

`flat_term_exact`: tokens pass as a flat term exactly if they are cut into units (`Symbol.Cut`), and
the label accesses are those of the units of three tokens. The first two tokens tell how long the
first unit is (`Symbol.unitLength`), so there is one cut at most. A unit fixes what stands around
each of its tokens (`Symbol.IsUnit.place`), so a token that lacks it (`Symbol.Stray`) spoils a term.
-/

set_option autoImplicit false

namespace LabelFlow

/-- The label access that a unit of three tokens spells. -/
def Access.ofUnit? : List Token → Option Access
  | [t, _, v] => some ⟨.ofToken t, .ofToken v⟩
  | _ => none

namespace Symbol

/-- The units of a flat term. -/
inductive IsUnit : List Token → Prop
  | single {t : Token}
      (kind : t.kind = .blank ∨ t.kind = .bang ∨ t.kind = .openParen ∨ t.kind = .closeParen) :
      IsUnit [t]
  | double {t u : Token} (kind : t.kind = .pipe ∧ u.kind = .pipe ∨ t.kind = .amp ∧ u.kind = .amp) :
      IsUnit [t, u]
  | literal {t : Token} (kind : t.kind = .word) (text : t.text = "TRUE" ∨ t.text = "FALSE") :
      IsUnit [t]
  | access {t d v : Token} (labelType : t.kind = .word) (dot : d.kind = .dot)
      (value : v.kind = .word) : IsUnit [t, d, v]

/-- Tokens that are cut into units. -/
structure Cut (tokens : List Token) (units : List (List Token)) : Prop where
  join : units.flatten = tokens
  isUnit : ∀ u ∈ units, IsUnit u

/-- A token that is no part of a unit where it stands, between the tokens `l` and `r`. -/
inductive Stray (l : List Token) (t : Token) (r : List Token) : Prop
  /-- A pipe or an ampersand without a second one beside it. -/
  | lone (kind : t.kind = .pipe ∨ t.kind = .amp) (before : ∀ u ∈ l.getLast?, u.kind ≠ t.kind)
      (after : ∀ u ∈ r.head?, u.kind ≠ t.kind)
  /-- A dot without a word on both sides. -/
  | dot (kind : t.kind = .dot)
      (sides : (∀ u ∈ l.getLast?, u.kind ≠ .word) ∨ ∀ u ∈ r.head?, u.kind ≠ .word)
  /-- The dot in front of a third segment. -/
  | third {front : List Token} {d v : Token} (kind : t.kind = .dot) (before : l = front ++ [d, v])
      (dot : d.kind = .dot)
  /-- A word that is no literal and has no dot beside it. -/
  | word (kind : t.kind = .word) (text : t.text ≠ "TRUE" ∧ t.text ≠ "FALSE")
      (before : ∀ u ∈ l.getLast?, u.kind ≠ .dot) (after : ∀ u ∈ r.head?, u.kind ≠ .dot)
  /-- A token that no term has. -/
  | foreign (kind : t.kind.isTermPart = false)

/-! ## Cutting -/

/-- A unit is cut off the front. -/
theorem Units.cons {u ts : List Token} {as : List Access} (hu : IsUnit u) (rest : Units ts as) :
    Units (u ++ ts) ((Access.ofUnit? u).toList ++ as) := by
  cases hu with
  | single kind => exact .single kind rest
  | double kind => exact .double kind rest
  | literal kind text => exact .literal kind text rest
  | access labelType dot value => exact .access labelType dot value rest

theorem Cut.nil : Cut [] [] := ⟨rfl, nofun⟩

theorem Cut.cons {u ts : List Token} {units : List (List Token)} (hu : IsUnit u)
    (rest : Cut ts units) : Cut (u ++ ts) (u :: units) :=
  ⟨by rw [List.flatten_cons, rest.join], List.forall_mem_cons.2 ⟨hu, rest.isUnit⟩⟩

/-- Tokens are a sequence of units exactly if they are cut into units with these accesses. -/
theorem units_iff {ts : List Token} {as : List Access} :
    Units ts as ↔ ∃ units, Cut ts units ∧ units.filterMap Access.ofUnit? = as := by
  constructor
  · intro h
    induction h with
    | nil => exact ⟨[], .nil, rfl⟩
    | single kind _ ih =>
      obtain ⟨units, hcut, rfl⟩ := ih
      exact ⟨_, .cons (.single kind) hcut, rfl⟩
    | double kind _ ih =>
      obtain ⟨units, hcut, rfl⟩ := ih
      exact ⟨_, .cons (.double kind) hcut, rfl⟩
    | literal kind text _ ih =>
      obtain ⟨units, hcut, rfl⟩ := ih
      exact ⟨_, .cons (.literal kind text) hcut, rfl⟩
    | access labelType dot value _ ih =>
      obtain ⟨units, hcut, rfl⟩ := ih
      exact ⟨_, .cons (.access labelType dot value) hcut, rfl⟩
  · rintro ⟨units, ⟨rfl, hunits⟩, rfl⟩
    induction units with
    | nil => exact .nil
    | cons u units ih =>
      obtain ⟨hu, hunits⟩ := List.forall_mem_cons.1 hunits
      have hcons := Units.cons hu (ih hunits)
      rw [List.flatten_cons, List.filterMap_cons]
      cases hone : Access.ofUnit? u <;> rw [hone] at hcons <;> exact hcons

/-! ## One cut -/

namespace IsUnit

variable {u : List Token}

theorem ne_nil (h : IsUnit u) : u ≠ [] := by
  cases h <;> exact List.cons_ne_nil _ _

/-- No unit begins with a dot. -/
theorem head_ne_dot (h : IsUnit u) (ts : List Token) : ∀ n ∈ (u ++ ts).head?, n.kind ≠ .dot := by
  intro n hn hdot
  cases h with
  | single kind | double kind | literal kind | access kind =>
    cases hn
    simp [hdot] at kind

/-- No unit ends with a dot. -/
theorem last_ne_dot (h : IsUnit u) : ∀ n ∈ u.getLast?, n.kind ≠ .dot := by
  intro n hn hdot
  cases h with
  | @single t kind =>
    obtain rfl : t = n := Option.some.inj hn
    simp [hdot] at kind
  | @double t u kind =>
    obtain rfl : u = n := Option.some.inj hn
    simp [hdot] at kind
  | @literal t kind =>
    obtain rfl : t = n := Option.some.inj hn
    simp [hdot] at kind
  | @access t d v _ _ kind =>
    obtain rfl : v = n := Option.some.inj hn
    simp [hdot] at kind

end IsUnit

/-- The number of tokens of the first unit. -/
def unitLength : List Token → Nat
  | [] => 0
  | t :: rest =>
    match t.kind with
    | .pipe | .amp => 2
    | .word => if rest.head?.any fun n => n.kind == .dot then 3 else 1
    | _ => 1

/-- The first two tokens tell where the first unit ends, if no dot follows it. -/
theorem IsUnit.length_eq {u ts : List Token} (h : IsUnit u) (hts : ∀ n ∈ ts.head?, n.kind ≠ .dot) :
    u.length = unitLength (u ++ ts) := by
  cases h with
  | single kind =>
    obtain kind | kind | kind | kind := kind <;> simp [unitLength, kind]
  | double kind =>
    obtain ⟨kind, -⟩ | ⟨kind, -⟩ := kind <;> simp [unitLength, kind]
  | literal kind =>
    cases ts with
    | nil => simp [unitLength, kind]
    | cons n ts =>
      have hn : n.kind ≠ .dot := hts n rfl
      simp [unitLength, kind, hn]
  | access kind dot => simp [unitLength, kind, dot]

theorem flatten_head_ne_dot {units : List (List Token)} (h : ∀ u ∈ units, IsUnit u) :
    ∀ n ∈ units.flatten.head?, n.kind ≠ .dot := by
  cases units with
  | nil => nofun
  | cons u units => exact (h u List.mem_cons_self).head_ne_dot _

theorem flatten_last_ne_dot {units : List (List Token)} (h : ∀ u ∈ units, IsUnit u) :
    ∀ n ∈ units.flatten.getLast?, n.kind ≠ .dot := by
  rcases List.eq_nil_or_concat units with rfl | ⟨front, u, rfl⟩
  · nofun
  · rw [List.concat_eq_append] at h ⊢
    have hu := h u (by simp)
    obtain ⟨n, hn⟩ : ∃ n, u.getLast? = some n := ⟨_, List.getLast?_eq_some_getLast hu.ne_nil⟩
    have hlast : (front ++ [u]).flatten.getLast? = u.getLast? := by
      rw [List.flatten_append, List.flatten_singleton, List.getLast?_append, hn, Option.some_or]
    rw [hlast]
    exact hu.last_ne_dot

/-- Tokens are cut into units in one way. -/
theorem Cut.eq {tokens : List Token} {units units' : List (List Token)} (h : Cut tokens units)
    (h' : Cut tokens units') : units = units' := by
  obtain ⟨rfl, hunits⟩ := h
  obtain ⟨hjoin, hunits'⟩ := h'
  induction units generalizing units' with
  | nil =>
    cases units' with
    | nil => rfl
    | cons u' units' =>
      have hne := (hunits' u' List.mem_cons_self).ne_nil
      rw [List.flatten_nil, List.flatten_cons, List.append_eq_nil_iff] at hjoin
      exact absurd hjoin.1 hne
  | cons u units ih =>
    obtain ⟨hu, hunits⟩ := List.forall_mem_cons.1 hunits
    cases units' with
    | nil =>
      rw [List.flatten_nil, List.flatten_cons, eq_comm, List.append_eq_nil_iff] at hjoin
      exact absurd hjoin.1 hu.ne_nil
    | cons u' units' =>
      obtain ⟨hu', hunits'⟩ := List.forall_mem_cons.1 hunits'
      rw [List.flatten_cons, List.flatten_cons] at hjoin
      have hlength : u'.length = u.length := by
        rw [hu'.length_eq (flatten_head_ne_dot hunits'), hjoin,
          ← hu.length_eq (flatten_head_ne_dot hunits)]
      obtain ⟨hfirst, hrest⟩ := List.append_inj hjoin hlength
      rw [hfirst, ih hunits hrest hunits']

/-! ## Strays -/

/-- What a token of a unit has around it in the unit. -/
inductive Place : List Token → Token → List Token → Prop
  | alone {t : Token}
      (kind : t.kind = .blank ∨ t.kind = .bang ∨ t.kind = .openParen ∨ t.kind = .closeParen) :
      Place [] t []
  | first {t u : Token} (kind : t.kind = .pipe ∨ t.kind = .amp) (same : u.kind = t.kind) :
      Place [] t [u]
  | second {t u : Token} (kind : t.kind = .pipe ∨ t.kind = .amp) (same : u.kind = t.kind) :
      Place [u] t []
  | literal {t : Token} (kind : t.kind = .word) (text : t.text = "TRUE" ∨ t.text = "FALSE") :
      Place [] t []
  | labelType {t d v : Token} (kind : t.kind = .word) (dot : d.kind = .dot) : Place [] t [d, v]
  | dot {w t v : Token} (before : w.kind = .word) (kind : t.kind = .dot) (after : v.kind = .word) :
      Place [w] t [v]
  | value {w d t : Token} (dot : d.kind = .dot) (kind : t.kind = .word) : Place [w, d] t []

theorem IsUnit.place {x y : List Token} {t : Token} (h : IsUnit (x ++ t :: y)) : Place x t y := by
  generalize hu : x ++ t :: y = u at h
  cases h with
  | single kind =>
    rcases x with _ | ⟨a, x⟩
    · obtain ⟨rfl, rfl⟩ := List.cons.inj hu
      exact .alone kind
    · simp at hu
  | double kind =>
    rcases x with _ | ⟨a, _ | ⟨b, x⟩⟩
    · obtain ⟨rfl, rfl⟩ := List.cons.inj hu
      obtain ⟨ht, hu⟩ | ⟨ht, hu⟩ := kind
      · exact .first (.inl ht) (hu.trans ht.symm)
      · exact .first (.inr ht) (hu.trans ht.symm)
    · obtain ⟨rfl, rfl, rfl⟩ : _ ∧ _ ∧ _ := by simpa using hu
      obtain ⟨ht, hu⟩ | ⟨ht, hu⟩ := kind
      · exact .second (.inl hu) (ht.trans hu.symm)
      · exact .second (.inr hu) (ht.trans hu.symm)
    · simp at hu
  | literal kind text =>
    rcases x with _ | ⟨a, x⟩
    · obtain ⟨rfl, rfl⟩ := List.cons.inj hu
      exact .literal kind text
    · simp at hu
  | access labelType dot value =>
    rcases x with _ | ⟨a, _ | ⟨b, _ | ⟨c, x⟩⟩⟩
    · obtain ⟨rfl, rfl⟩ := List.cons.inj hu
      exact .labelType labelType dot
    · obtain ⟨rfl, rfl, rfl⟩ : _ ∧ _ ∧ _ := by simpa using hu
      exact .dot labelType dot value
    · obtain ⟨rfl, rfl, rfl, rfl⟩ : _ ∧ _ ∧ _ ∧ _ := by simpa using hu
      exact .value dot value
    · simp at hu

/-- A token between others that are cut into units with it. -/
def InUnit (l : List Token) (t : Token) (r : List Token) : Prop :=
  ∃ (front back : List (List Token)) (x y : List Token), (∀ u ∈ front, IsUnit u) ∧
    l = front.flatten ++ x ∧ r = y ++ back.flatten ∧ Place x t y

/-- A token of units stands in one of them. -/
theorem inUnit_of_flatten {units : List (List Token)} (h : ∀ u ∈ units, IsUnit u)
    {l r : List Token} {t : Token} (hjoin : units.flatten = l ++ t :: r) : InUnit l t r := by
  induction units generalizing l with
  | nil => simp at hjoin
  | cons u units ih =>
    obtain ⟨hu, hunits⟩ := List.forall_mem_cons.1 h
    have later : ∀ l', l = u ++ l' → units.flatten = l' ++ t :: r → InUnit l t r := by
      rintro l' rfl hrest
      obtain ⟨front, back, x, y, hfront, rfl, hr, hplace⟩ := ih hunits hrest
      exact ⟨u :: front, back, x, y, List.forall_mem_cons.2 ⟨hu, hfront⟩, by simp, hr, hplace⟩
    rw [List.flatten_cons] at hjoin
    rcases List.append_eq_append_iff.1 hjoin with ⟨l', hl, hrest⟩ | ⟨y, rfl, hrest⟩
    · exact later l' hl hrest
    · cases y with
      | nil => exact later [] (by simp) hrest.symm
      | cons s y =>
        obtain ⟨rfl, rfl⟩ := List.cons.inj hrest
        exact ⟨[], units, l, y, nofun, rfl, rfl, hu.place⟩

/-- A stray token is in no unit. -/
theorem Stray.not_inUnit {l r : List Token} {t : Token} (h : Stray l t r) : ¬ InUnit l t r := by
  rintro ⟨front, back, x, y, hfront, rfl, rfl, hplace⟩
  have hlast : ∀ (ws : List Token) (w : Token), w ∈ (front.flatten ++ (ws ++ [w])).getLast? := by
    simp
  cases h with
  | lone kind before after =>
    cases hplace with
    | first _ same => exact after _ rfl same
    | second _ same => exact before _ (hlast [] _) same
    | alone other => obtain kind | kind := kind <;> simp [kind] at other
    | literal other | labelType other | dot _ other | value _ other => simp [other] at kind
  | dot kind sides =>
    cases hplace with
    | dot before _ after =>
      rcases sides with hl | hr
      · exact hl _ (hlast [] _) before
      · exact hr _ rfl after
    | alone other | first other | second other => simp [kind] at other
    | literal other | labelType other | value _ other => simp [kind] at other
  | @third fore d v kind before dot =>
    cases hplace with
    | @dot w =>
      have hfore : front.flatten = fore ++ [d] := by
        have hsplit : front.flatten ++ [w] = (fore ++ [d]) ++ [v] := by simpa using before
        exact (List.append_inj' hsplit rfl).1
      exact flatten_last_ne_dot hfront d (by rw [hfore]; simp) dot
    | alone other | first other | second other => simp [kind] at other
    | literal other | labelType other | value _ other => simp [kind] at other
  | word kind text before after =>
    cases hplace with
    | literal _ literal => exact literal.elim text.1 text.2
    | labelType _ dot => exact after _ rfl dot
    | @value w d _ dot => exact before _ (hlast [w] _) dot
    | alone other | first other | second other => simp [kind] at other
    | dot _ other => simp [kind] at other
  | foreign kind =>
    cases hplace with
    | alone other =>
      obtain other | other | other | other := other <;> simp [other, Kind.isTermPart] at kind
    | first other | second other =>
      obtain other | other := other <;> simp [other, Kind.isTermPart] at kind
    | literal other | labelType other | dot _ other | value _ other =>
      simp [other, Kind.isTermPart] at kind

end Symbol

/-- The language of flat terms is exact. Tokens pass with some label accesses exactly if they are
cut into units, which are a blank, a bang, a parenthesis, two pipes, two ampersands, a literal, or a
word, a dot and a word, and the accesses are those of the last form, in order, with their own texts
and spans. There is one cut at most. Tokens with a stray one among them are refused: a single pipe
or ampersand, a dot without a word on both sides, a third segment, another word, any other
character. -/
theorem flat_term_exact (tokens : List Token) :
    (∀ accesses, Access.ofTokens tokens = .ok accesses ↔
      ∃ units, Symbol.Cut tokens units ∧ units.filterMap Access.ofUnit? = accesses) ∧
    (∀ units units', Symbol.Cut tokens units → Symbol.Cut tokens units' → units = units') ∧
    ∀ l t r, tokens = l ++ t :: r → Symbol.Stray l t r →
      ∃ error, Access.ofTokens tokens = .error error := by
  have hiff : ∀ accesses, Access.ofTokens tokens = .ok accesses ↔
      ∃ units, Symbol.Cut tokens units ∧ units.filterMap Access.ofUnit? = accesses :=
    fun accesses => Access.ofTokens_eq_ok_iff.trans Symbol.units_iff
  refine ⟨hiff, fun units units' h h' => h.eq h', ?_⟩
  rintro l t r rfl hstray
  cases hresult : Access.ofTokens (l ++ t :: r) with
  | error error => exact ⟨error, rfl⟩
  | ok accesses =>
    obtain ⟨units, hcut, -⟩ := (hiff accesses).1 hresult
    exact absurd (Symbol.inUnit_of_flatten hcut.isUnit hcut.join) hstray.not_inUnit

/-- A literal that is a type, an access behind a closing parenthesis, and a third segment. -/
theorem flat_term_exact_segments :
    (Symbol.Cut (Token.ofLine "TRUE.x)")
        [(Token.ofLine "TRUE.x)").take 3, (Token.ofLine "TRUE.x)").drop 3] ∧
      Access.ofTokens (Token.ofLine "TRUE.x)") = .ok [⟨⟨"TRUE", ⟨0, 4⟩⟩, ⟨"x", ⟨5, 6⟩⟩⟩]) ∧
    ∃ error, Access.ofTokens (Token.ofLine "A.b.c") = .error error := by
  have hcut : Symbol.Cut (Token.ofLine "TRUE.x)")
      [(Token.ofLine "TRUE.x)").take 3, (Token.ofLine "TRUE.x)").drop 3] := by
    refine ⟨by decide, List.forall_mem_cons.2 ⟨.access rfl rfl rfl, ?_⟩⟩
    exact List.forall_mem_singleton.2 (.single (.inr (.inr (.inr rfl))))
  obtain ⟨hiff, -, -⟩ := flat_term_exact (Token.ofLine "TRUE.x)")
  refine ⟨⟨hcut, (hiff _).2 ⟨_, hcut, by decide⟩⟩, ?_⟩
  exact (flat_term_exact (Token.ofLine "A.b.c")).2.2 ((Token.ofLine "A.b.c").take 3) _ _ rfl
    (@Symbol.Stray.third _ _ _ ((Token.ofLine "A.b.c").take 1) _ _ rfl rfl rfl)

end LabelFlow
