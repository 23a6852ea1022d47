import LabelFlow.Proofs.GuardedTerms
import LabelFlow.Term.Parse

/-!
# Reading terms as trees with operations that may fail

A tree is read by recursive descent, one function for each level of the grammar (`Guarded.term`) and
one for what follows the first operand (`Guarded.chain`). What such a function has read is where the
reader of symbols stands at the same index (`Guarded.Agrees`), or both refuse the term for the same
reason. So reading a tree never fails (`Guarded.parse_eq`).
-/

set_option autoImplicit false

namespace LabelFlow.Guarded

open Term (Rank Level Focus State)

/-! ## Readers -/

/-- The index of the first token that is not blank. -/
def skipBlanks (ts : List Token) (i : Nat) : Nat :=
  if _h : kindAt ts i = some .blank then skipBlanks ts (i + 1) else i
termination_by ts.length - i
decreasing_by
  have := lt_of_kindAt _h
  omega

/-- The place of a level in the grammar. -/
def height : Rank → Nat
  | .atom => 0
  | .unary => 1
  | .conjunction => 2
  | .disjunction => 3

theorem height_operandRank (op : Connective) : height op.operandRank ≤ 2 := by
  cases op <;> decide

section
variable {ts : List Token} {i : Nat}

theorem le_skipBlanks (ts : List Token) (i : Nat) : i ≤ skipBlanks ts i := by
  fun_induction skipBlanks ts i with
  | case1 i h ih => omega
  | case2 i h => exact Nat.le_refl i

theorem skipBlanks_le (h : i ≤ ts.length) : skipBlanks ts i ≤ ts.length := by
  fun_induction skipBlanks ts i with
  | case1 i hblank ih => exact ih (lt_of_kindAt hblank)
  | case2 i hblank => exact h

theorem kindAt_skipBlanks (ts : List Token) (i : Nat) :
    kindAt ts (skipBlanks ts i) ≠ some .blank := by
  fun_induction skipBlanks ts i with
  | case1 i h ih => exact ih
  | case2 i h => exact h

theorem skipBlanks_eq (h : kindAt ts i ≠ some .blank) : skipBlanks ts i = i := by
  rw [skipBlanks, dif_neg h]

theorem read_skipBlanks (ts : List Token) (i : Nat) :
    Symbol.read (ts.drop (skipBlanks ts i)) = Symbol.read (ts.drop i) := by
  fun_induction skipBlanks ts i with
  | case1 i h ih =>
    obtain ⟨t, ht, hkind⟩ := exists_of_kindAt h
    rw [ih, read_blank ht hkind]
  | case2 i h => rfl

end

/-- A term that begins at an index, and the index behind it. -/
structure Parsed (ts : List Token) (i : Nat) where
  value : Term
  next : Nat
  after : i < next
  within : next ≤ ts.length

namespace Parsed

variable {ts : List Token} {i j : Nat}

/-- A term of some tokens. -/
def leaf (value : Term) (n : Nat) (hij : i ≤ j) (h : j + (n + 1) ≤ ts.length) : Parsed ts i :=
  ⟨value, j + (n + 1), by omega, h⟩

/-- The negation of the term behind a bang. -/
def negate (bang : Span) (hij : i ≤ j) (p : Parsed ts (j + 1)) : Parsed ts i :=
  ⟨.not p.value (bang.cover p.value.span), p.next,
    Nat.lt_of_le_of_lt hij (Nat.lt_of_succ_lt p.after), p.within⟩

/-- Two operands with a connective between them. -/
def join (op : Connective) (lhs : Parsed ts i) (h : lhs.next ≤ j) (rhs : Parsed ts (j + 2)) :
    Parsed ts i :=
  ⟨.binary op lhs.value rhs.value, rhs.next,
    Nat.lt_trans lhs.after (Nat.lt_of_le_of_lt h (Nat.lt_of_add_right_lt rhs.after)), rhs.within⟩

/-- A term and the blanks behind it. -/
def skip (p : Parsed ts i) : Parsed ts i :=
  ⟨p.value, skipBlanks ts p.next, Nat.lt_of_lt_of_le p.after (le_skipBlanks ts p.next),
    skipBlanks_le p.within⟩

end Parsed

/-- Closes a group behind the term in it. -/
def closeGroup {ts : List Token} {i j : Nat} (opening : Token) (hij : i ≤ j)
    (inner : Parsed ts (j + 1)) : TermReader (Parsed ts i) :=
  let k := skipBlanks ts inner.next
  have hk : i ≤ k := Nat.le_trans hij (Nat.le_trans (Nat.le_of_succ_le (Nat.le_of_lt inner.after))
    (le_skipBlanks ts inner.next))
  if h : kindAt ts k = some .closeParen then do
    let close ← token ts k
    let close ← placeOf close
    let opening ← placeOf opening
    pure (.leaf (.group inner.value (opening.cover close)) 0 hk (lt_of_kindAt h))
  else throw (missing ts .closeParen k)

mutual

/-- The term of a level that begins at an index, perhaps behind blanks. -/
def term (r : Rank) (ts : List Token) (i : Nat) : TermReader (Parsed ts i) :=
  match r with
  | .disjunction => do
    let lhs ← term .conjunction ts i
    chain .or ts i lhs
  | .conjunction => do
    let lhs ← term .unary ts i
    chain .and ts i lhs
  | .unary =>
    let j := skipBlanks ts i
    have hij : i ≤ j := le_skipBlanks ts i
    if _h : kindAt ts j = some .bang then do
      let bang ← token ts j
      let bang ← placeOf bang
      let operand ← term .unary ts (j + 1)
      pure (operand.negate bang hij)
    else term .atom ts i
  | .atom =>
    let j := skipBlanks ts i
    have hij : i ≤ j := le_skipBlanks ts i
    match h : ts[j]? with
    | none => throw (missing ts .operand j)
    | some t =>
      have hlt : j < ts.length := lt_of_getElem? h
      match t.kind with
      | .openParen => do
        let inner ← term .disjunction ts (j + 1)
        closeGroup t hij inner
      | .word =>
        if kindAt ts (j + 1) = some .dot then do
          let found ← access ts j
          pure (.leaf (.access found.1) 2 hij found.2)
        else
          match Symbol.literalValue? t.text with
          | some value => do
            let bounds ← placeOf t
            pure (.leaf (.literal value bounds) 0 hij hlt)
          | none => throw (missing ts .operandWord j)
      | _ => throw (missing ts .operand j)
termination_by 4 * (ts.length - i) + height r
decreasing_by
  · simp only [height]
    omega
  · have := lhs.after
    have := lhs.within
    omega
  · simp only [height]
    omega
  · have := lhs.after
    have := lhs.within
    omega
  · have := lt_of_kindAt _h
    omega
  · simp only [height]
    omega
  · simp only [height]
    omega

/-- Goes on with a chain of operands as long as a connective follows. -/
def chain (op : Connective) (ts : List Token) (i : Nat) (lhs : Parsed ts i) :
    TermReader (Parsed ts i) :=
  let j := skipBlanks ts lhs.next
  have hj : lhs.next ≤ j := le_skipBlanks ts lhs.next
  if _h : Doubled op ts j then do
    let rhs ← term op.operandRank ts (j + 2)
    chain op ts i (lhs.join op hj rhs)
  else pure lhs.skip
termination_by 4 * (ts.length - lhs.next)
decreasing_by
  · have := height_operandRank op
    have := lt_of_kindAt _h.2
    omega
  · have := rhs.after
    have := rhs.within
    simp only [Parsed.join]
    omega

end

/-- The tree of all tokens. -/
def parse (ts : List Token) : TermReader Term := do
  let p ← term .disjunction ts 0
  let k := skipBlanks ts p.next
  if k < ts.length then throw (missing ts .operatorOrEnd k)
  pure p.value

/-! ## Where the reader of symbols stands -/

/-- The tree, when the symbols from an index on are still to be taken. -/
def resume (ts : List Token) (outer : List (Span × Level)) (focus : Focus) (i : Nat) :
    Except TermFault Term :=
  (Symbol.read (ts.drop i)).foldlM State.step ⟨outer, focus⟩ >>=
    State.finish (Token.stopOr 0 ts)

/-- A reader reads a term, after which `after` is left, or refuses the term. -/
inductive Agrees {ts : List Token} {i : Nat} (after : Parsed ts i → Except TermFault Term)
    (stops : Nat → Prop) : TermReader (Parsed ts i) → Except TermFault Term → Prop
  | parsed (p : Parsed ts i) (h : stops p.next) : Agrees after stops (pure p) (after p)
  | refused (e : TermFault) : Agrees after stops (throw e) (.error e)

theorem Agrees.bind {ts : List Token} {i j : Nat} {after : Parsed ts i → Except TermFault Term}
    {after' : Parsed ts j → Except TermFault Term} {stops stops' : Nat → Prop}
    {r : TermReader (Parsed ts i)} {x : Except TermFault Term}
    {f : Parsed ts i → TermReader (Parsed ts j)} (h : Agrees after stops r x)
    (hf : ∀ p : Parsed ts i, stops p.next → Agrees after' stops' (f p) (after p)) :
    Agrees after' stops' (r >>= f) x := by
  cases h with
  | parsed p hp =>
    rw [pure_bind]
    exact hf p hp
  | refused e => exact .refused e

/-- What is left matters only where a reader stops. -/
theorem Agrees.imp {ts : List Token} {i : Nat} {after after' : Parsed ts i → Except TermFault Term}
    {stops stops' : Nat → Prop} {r : TermReader (Parsed ts i)} {x : Except TermFault Term}
    (h : Agrees after stops r x)
    (himp : ∀ p : Parsed ts i, stops p.next → after p = after' p ∧ stops' p.next) :
    Agrees after' stops' r x := by
  cases h with
  | parsed p hp =>
    rw [(himp p hp).1]
    exact .parsed p (himp p hp).2
  | refused e => exact .refused e

section
variable {ts : List Token} {outer outer' : List (Span × Level)} {focus focus' : Focus}
  {s : Symbol} {more : List Symbol} {i j : Nat} {t : Token}

theorem resume_skipBlanks (ts : List Token) (outer : List (Span × Level)) (focus : Focus)
    (i : Nat) : resume ts outer focus i = resume ts outer focus (skipBlanks ts i) := by
  rw [resume, resume, read_skipBlanks]

theorem resume_end (h : ts[i]? = none) :
    resume ts outer focus i = State.finish (Token.stopOr 0 ts) ⟨outer, focus⟩ := by
  rw [resume, List.drop_eq_nil_of_le (List.getElem?_eq_none_iff.1 h)]
  rfl

theorem resume_step (hread : Symbol.read (ts.drop i) = s :: Symbol.read (ts.drop j))
    (hstep : State.step ⟨outer, focus⟩ s = .ok ⟨outer', focus'⟩) :
    resume ts outer focus i = resume ts outer' focus' j := by
  rw [resume, hread, List.foldlM_cons, hstep]
  rfl

theorem resume_error {e : TermFault} (hread : Symbol.read (ts.drop i) = s :: more)
    (hstep : State.step ⟨outer, focus⟩ s = .error e) : resume ts outer focus i = .error e := by
  rw [resume, hread, List.foldlM_cons, hstep]
  rfl

/-- A token that is not blank begins a symbol. -/
theorem exists_symbol (h : ts[i]? = some t) (hblank : t.kind ≠ .blank) :
    ∃ s more, Symbol.read (ts.drop i) = s :: more ∧ s.start = t.start ∧
      (∀ op start, s = .connective op start → Doubled op ts i) ∧
      ∀ span, s = .closeParen span → t.kind = .closeParen := by
  by_cases hdouble : ∃ op, Doubled op ts i
  · obtain ⟨op, hop⟩ := hdouble
    refine ⟨_, _, read_doubled op h hop, rfl, fun op' start hs => ?_, by simp⟩
    cases hs
    exact hop
  by_cases hdot : t.kind = .word ∧ kindAt ts (i + 1) = some .dot
  · obtain ⟨a, -, hstart, hread⟩ | ⟨e, more, -, hread⟩ := access_at h hdot.1 hdot.2
    · exact ⟨_, _, hread, hstart, by simp, by simp⟩
    · exact ⟨_, _, hread, rfl, by simp, by simp⟩
  refine ⟨_, _, read_single h hblank (not_exists.1 hdouble) fun hword hnext => hdot ⟨hword, hnext⟩,
    ?_⟩
  rw [single]
  cases hkind : t.kind with
  | word =>
    dsimp only
    rw [Symbol.ofWord]
    split <;> exact ⟨rfl, by simp, by simp⟩
  | _ => exact ⟨rfl, by simp, by simp⟩

/-- At an operator position the left side of a `||` may as well be joined already, unless a `&&`
follows. -/
theorem resume_join (hblank : kindAt ts i ≠ some .blank) (hand : ¬Doubled .and ts i)
    (lhs rhs : Term) : resume ts outer (.operator (some lhs) rhs) i =
      resume ts outer (.operator none (.binary .or lhs rhs)) i := by
  cases h : ts[i]? with
  | none =>
    rw [resume_end h, resume_end h]
    cases outer <;> rfl
  | some t =>
    obtain ⟨s, more, hread, -, hconnective, -⟩ :=
      exists_symbol h fun hkind => hblank (hkind ▸ kindAt_eq h)
    have hstep : State.step ⟨outer, .operator (some lhs) rhs⟩ s =
        State.step ⟨outer, .operator none (.binary .or lhs rhs)⟩ s := by
      cases s with
      | connective op start =>
        cases op with
        | and => exact absurd (hconnective .and start rfl) hand
        | or => rfl
      | closeParen span => cases outer <;> rfl
      | _ => rfl
    rw [resume, resume, hread, List.foldlM_cons, List.foldlM_cons, hstep]

/-- At an operator position nothing but a connective and a closing parenthesis goes on. -/
theorem resume_stuck {disjunct : Option Term} {conjunct : Term} (h : ts[i]? = some t)
    (hblank : t.kind ≠ .blank) (hdouble : ∀ op, ¬Doubled op ts i)
    (hclose : t.kind = .closeParen → outer = []) :
    resume ts outer (.operator disjunct conjunct) i =
      .error ⟨State.expectedEnd outer, t.start⟩ := by
  obtain ⟨s, more, hread, hstart, hconnective, hparen⟩ := exists_symbol h hblank
  refine resume_error hread ?_
  rw [← hstart]
  cases s with
  | connective op start => exact absurd (hconnective op start rfl) (hdouble op)
  | closeParen span =>
    rw [hclose (hparen span rfl)]
    rfl
  | _ => rfl

/-- Nothing but a negation, a parenthesis and a word begins an operand. -/
theorem resume_noOperand {level : Level} (h : ts[i]? = some t) (hblank : t.kind ≠ .blank)
    (hbang : t.kind ≠ .bang) (hparen : t.kind ≠ .openParen) (hword : t.kind ≠ .word) :
    resume ts outer (.operand level) i = .error ⟨.operand, t.start⟩ := by
  by_cases hdouble : ∃ op, Doubled op ts i
  · obtain ⟨op, hop⟩ := hdouble
    exact resume_error (read_doubled op h hop) rfl
  refine resume_error (read_single h hblank (not_exists.1 hdouble) fun hk => absurd hk hword) ?_
  rw [single]
  cases hkind : t.kind <;> first | rfl | exact absurd hkind (by assumption)

end

/-! ## One level after another -/

section
variable {ts : List Token} {outer : List (Span × Level)} {i : Nat}

/-- An operand, where any level waits for it. -/
def UnaryAgrees (ts : List Token) (r : Rank) (i : Nat) : Prop :=
  ∀ outer level, Agrees (fun p => resume ts outer (level.supply p.value) p.next)
    (fun _ => True) (term r ts i) (resume ts outer (.operand level) i)

/-- A chain of operands joined by `&&`, where any left side of a `||` waits. -/
def ConjunctionAgrees (ts : List Token) (i : Nat) : Prop :=
  ∀ outer disjunct, Agrees (fun p => resume ts outer (.operator disjunct p.value) p.next)
    (fun k => kindAt ts k ≠ some .blank ∧ ¬Doubled .and ts k) (term .conjunction ts i)
    (resume ts outer (.operand ⟨disjunct, none, []⟩) i)

/-- A whole term, with what stands around it. -/
def DisjunctionAgrees (ts : List Token) (i : Nat) : Prop :=
  ∀ outer, Agrees (fun p => resume ts outer (.operator none p.value) p.next)
    (fun k => kindAt ts k ≠ some .blank ∧ ∀ op, ¬Doubled op ts k) (term .disjunction ts i)
    (resume ts outer (.operand .fresh) i)

/-- A group is closed where the reader of symbols closes it. -/
theorem closeGroup_agrees {j : Nat} (opening : Token) (hij : i ≤ j) (inner : Parsed ts (j + 1))
    (hblank : kindAt ts inner.next ≠ some .blank) (hdouble : ∀ op, ¬Doubled op ts inner.next)
    (outer : List (Span × Level)) (level : Level) :
    Agrees (fun p => resume ts outer (level.supply p.value) p.next) (fun _ => True)
      (closeGroup opening hij inner)
      (resume ts ((opening.span, level) :: outer) (.operator none inner.value) inner.next) := by
  rw [closeGroup]
  simp only [skipBlanks_eq hblank]
  cases h : ts[inner.next]? with
  | none =>
    have hclose : kindAt ts inner.next ≠ some .closeParen := by simp [kindAt, h]
    have hmissing : missing ts .closeParen inner.next = ⟨.closeParen, Token.stopOr 0 ts⟩ := by
      rw [missing, h]
      rfl
    rw [dif_neg hclose, resume_end h, hmissing]
    exact .refused _
  | some t =>
    rw [kindAt_eq h] at hblank
    have hown : t.kind ≠ .blank := fun hk => hblank (congrArg some hk)
    by_cases hclose : t.kind = .closeParen
    · have hread := read_single h hown hdouble (by simp [hclose])
      rw [single, hclose] at hread
      rw [dif_pos ((kindAt_eq h).trans (congrArg some hclose)), token_eq h, lift_bind,
        placeOf_eq, lift_bind, placeOf_eq, lift_bind, resume_step hread rfl]
      exact .parsed _ trivial
    · rw [dif_neg fun hk => hclose (Option.some.inj ((kindAt_eq h).symm.trans hk)),
        resume_stuck h hown hdouble fun hk => absurd hk hclose, missing_eq h]
      exact .refused _

theorem atom_agrees (hinner : ∀ k, i < k → k ≤ ts.length → DisjunctionAgrees ts k)
    (hbang : kindAt ts (skipBlanks ts i) ≠ some .bang) : UnaryAgrees ts .atom i := by
  intro outer level
  have hle := le_skipBlanks ts i
  have hblank := kindAt_skipBlanks ts i
  rw [resume_skipBlanks, term]
  dsimp only
  split
  next h =>
    have hmissing : missing ts .operand (skipBlanks ts i) = ⟨.operand, Token.stopOr 0 ts⟩ := by
      rw [missing, h]
      rfl
    rw [resume_end h, hmissing]
    exact .refused _
  next t h =>
    have hlt := (List.getElem?_eq_some_iff.1 h).1
    rw [kindAt_eq h] at hblank hbang
    split
    next hkind =>
      have hread := read_single h (by simp [hkind]) (not_doubled h (by simp [hkind])
        (by simp [hkind])) (by simp [hkind])
      rw [single, hkind] at hread
      rw [resume_step hread rfl]
      exact (hinner _ (by omega) hlt _).bind fun inner hstops =>
        closeGroup_agrees t hle inner hstops.1 hstops.2 outer level
    next hkind =>
      have hdouble : ∀ op, ¬Doubled op ts (skipBlanks ts i) :=
        not_doubled h (by simp [hkind]) (by simp [hkind])
      split
      next hdot =>
        obtain ⟨a, ha, -, hread⟩ | ⟨e, more, he, hread⟩ := access_at h hkind hdot
        · rw [ha, pure_bind, resume_step hread rfl]
          exact .parsed _ trivial
        · rw [he, resume_error hread rfl]
          exact .refused e
      next hdot =>
        have hread := read_single h (by simp [hkind]) hdouble fun _ => hdot
        rw [single, hkind] at hread
        dsimp only at hread
        rw [Symbol.ofWord] at hread
        split
        next value hvalue =>
          rw [hvalue] at hread
          rw [placeOf_eq, lift_bind, resume_step hread rfl]
          exact .parsed _ trivial
        next hvalue =>
          rw [hvalue] at hread
          rw [resume_error hread rfl, missing_eq h]
          exact .refused _
    next hopen hword =>
      rw [resume_noOperand h (fun hk => hblank (congrArg some hk))
        (fun hk => hbang (congrArg some hk)) hopen hword, missing_eq h]
      exact .refused _

theorem unary_agrees (hinner : ∀ k, i < k → k ≤ ts.length → DisjunctionAgrees ts k)
    (hoperand : ∀ k, i < k → k ≤ ts.length → UnaryAgrees ts .unary k) :
    UnaryAgrees ts .unary i := by
  intro outer level
  have hle := le_skipBlanks ts i
  rw [term]
  split
  next hbang =>
    obtain ⟨t, h, hkind⟩ := exists_of_kindAt hbang
    have hread := read_single h (by simp [hkind]) (not_doubled h (by simp [hkind])
      (by simp [hkind])) (by simp [hkind])
    rw [single, hkind] at hread
    rw [token_eq h, lift_bind, placeOf_eq, lift_bind, resume_skipBlanks,
      resume_step hread rfl]
    exact (hoperand _ (by omega) (lt_of_kindAt hbang) _ _).bind fun operand _ =>
      .parsed _ trivial
  next hbang => exact atom_agrees hinner hbang outer level

/-- A chain goes on like the reader of symbols, if each of its operands does. -/
theorem chain_agrees {op : Connective} (focus : Term → Focus) (stops : Nat → Prop)
    (hoperand : ∀ lhs k, i < k → k + 2 ≤ ts.length → Doubled op ts k →
      Agrees (fun p => resume ts outer (focus (.binary op lhs p.value)) p.next) stops
        (term op.operandRank ts (k + 2)) (resume ts outer (focus lhs) k))
    (lhs : Parsed ts i) (hlhs : stops lhs.next) :
    Agrees (fun p => resume ts outer (focus p.value) p.next)
      (fun k => ∃ j, stops j ∧ k = skipBlanks ts j ∧ ¬Doubled op ts k)
      (chain op ts i lhs) (resume ts outer (focus lhs.value) lhs.next) := by
  induction hn : ts.length - lhs.next using Nat.strongRecOn generalizing lhs with
  | ind n ih =>
  have hle := le_skipBlanks ts lhs.next
  have hbegin := lhs.after
  rw [chain, resume_skipBlanks]
  split
  next hdouble =>
    have hlt := lt_of_kindAt hdouble.2
    refine (hoperand lhs.value _ (by omega) hlt hdouble).bind fun rhs hstops => ?_
    have := rhs.after
    have := rhs.within
    exact ih (ts.length - rhs.next) (by omega) (lhs.join op hle rhs) hstops rfl
  next hdouble => exact .parsed _ ⟨_, hlhs, rfl, hdouble⟩

theorem conjunction_agrees (hoperand : ∀ k, i ≤ k → k ≤ ts.length → UnaryAgrees ts .unary k)
    (hi : i ≤ ts.length) : ConjunctionAgrees ts i := by
  intro outer disjunct
  rw [term]
  refine (hoperand i (Nat.le_refl i) hi outer _).bind fun lhs _ => ?_
  refine (chain_agrees (.operator disjunct) (fun _ => True) (fun lhs k hk hlt hdouble => ?_)
    lhs trivial).imp ?_
  · obtain ⟨t, h, -⟩ := exists_of_kindAt hdouble.1
    rw [resume_step (read_doubled .and h hdouble) rfl]
    exact hoperand (k + 2) (by omega) hlt outer ⟨disjunct, some lhs, []⟩
  · rintro p ⟨j, -, hnext, hdouble⟩
    exact ⟨rfl, hnext ▸ kindAt_skipBlanks ts j, hdouble⟩

theorem disjunction_agrees (hoperand : ∀ k, i ≤ k → k ≤ ts.length → ConjunctionAgrees ts k)
    (hi : i ≤ ts.length) : DisjunctionAgrees ts i := by
  intro outer
  rw [term]
  refine (hoperand i (Nat.le_refl i) hi outer none).bind fun lhs hlhs => ?_
  refine (chain_agrees (.operator none)
    (fun k => kindAt ts k ≠ some .blank ∧ ¬Doubled .and ts k) (fun lhs k hk hlt hdouble => ?_)
    lhs hlhs).imp ?_
  · obtain ⟨t, h, -⟩ := exists_of_kindAt hdouble.1
    rw [resume_step (read_doubled .or h hdouble) rfl]
    exact (hoperand (k + 2) (by omega) hlt outer (some lhs)).imp fun rhs hrhs =>
      ⟨resume_join hrhs.1 hrhs.2 lhs rhs.value, hrhs⟩
  · rintro p ⟨j, ⟨hblank, hand⟩, hnext, hor⟩
    rw [skipBlanks_eq hblank] at hnext
    rw [hnext] at hor ⊢
    refine ⟨rfl, hblank, fun op => ?_⟩
    cases op with
    | and => exact hand
    | or => exact hor

/-- On every level what is read is where the reader of symbols stands. -/
theorem agrees (ts : List Token) {i : Nat} (hi : i ≤ ts.length) :
    UnaryAgrees ts .unary i ∧ ConjunctionAgrees ts i ∧ DisjunctionAgrees ts i := by
  induction hn : ts.length - i using Nat.strongRecOn generalizing i with
  | ind n ih =>
  have hmore : ∀ k, i < k → k ≤ ts.length → _ := fun k hik hk =>
    ih (ts.length - k) (by omega) hk rfl
  have hunary : ∀ k, i ≤ k → k ≤ ts.length → UnaryAgrees ts .unary k := by
    intro k hik hk
    rcases Nat.eq_or_lt_of_le hik with rfl | hlt
    · exact unary_agrees (fun k hik hk => (hmore k hik hk).2.2) fun k hik hk => (hmore k hik hk).1
    · exact (hmore k hlt hk).1
  have hconjunction : ∀ k, i ≤ k → k ≤ ts.length → ConjunctionAgrees ts k := by
    intro k hik hk
    exact conjunction_agrees (fun j hkj hj => hunary j (Nat.le_trans hik hkj) hj) hk
  exact ⟨hunary i (Nat.le_refl i) hi, hconjunction i (Nat.le_refl i) hi,
    disjunction_agrees hconjunction hi⟩

end

/-- Reading a tree never fails, and it reads the tree of the symbols or refuses the term for the
same reason. -/
theorem parse_eq (ts : List Token) : parse ts = decided (Term.parse ts) := by
  have hterm := (agrees ts (Nat.zero_le _)).2.2 []
  have hparse : Term.parse ts = resume ts [] (.operand .fresh) 0 := rfl
  rw [parse, hparse]
  generalize term .disjunction ts 0 = r, resume ts [] (.operand .fresh) 0 = x at hterm ⊢
  cases hterm with
  | refused e => rfl
  | parsed p hp =>
    rw [pure_bind]
    simp only [skipBlanks_eq hp.1]
    cases h : ts[p.next]? with
    | none =>
      rw [if_neg (Nat.not_lt.2 (List.getElem?_eq_none_iff.1 h)), resume_end h]
      rfl
    | some t =>
      have hblank : t.kind ≠ .blank := fun hk => hp.1 ((kindAt_eq h).trans (congrArg some hk))
      rw [if_pos (List.getElem?_eq_some_iff.1 h).1, missing_eq h,
        resume_stuck h hblank hp.2 fun _ => rfl]
      rfl

end LabelFlow.Guarded
