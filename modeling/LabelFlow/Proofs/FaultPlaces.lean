import LabelFlow.Proofs.TermAccesses

/-!
# Where a term is refused

`term_faults_located`: the offset of a refusal is that of a token up to which the tokens can still
be continued to a term, and no continuation exists any more one token behind it (`Token.Blames`).
This holds of both readers, `Term.parse` and `Access.ofTokens`.

The faults that grouping finds are settled once for both (`Symbol.Misfit`), with a view of what
`Symbol.read` finds in any tokens (`Symbol.Reading`). `Access.ofTokens` reports the first of them.
The other refusals of `Term.parse` are symbols that its state does not take, which depends on the
kind of their first token only (`Term.State.Expects`).
-/

set_option autoImplicit false

namespace LabelFlow

namespace Token

/-- The offset of the token with this index, or after the last token if there are no more. -/
def offsetAt (fallback : Nat) (tokens : List Token) (i : Nat) : Nat :=
  (tokens[i]?.map start).getD (stopOr fallback tokens)

/-- The token at the index `i`, or the end of the tokens if there is none, is to blame for an error
at this offset: it stands there, what is before it can be continued to tokens that are accepted, and
together with it and one token after it this is no longer so. -/
structure Blames (accepts : List Token → Prop) (fallback : Nat) (tokens : List Token)
    (offset i : Nat) : Prop where
  le : i ≤ tokens.length
  offset_eq : offset = offsetAt fallback tokens i
  viable : ∃ more, accepts (tokens.take i ++ more)
  dead : i + 2 ≤ tokens.length → ∀ more, ¬ accepts (tokens.take (i + 2) ++ more)

theorem stopOr_append (fallback : Nat) (a b : List Token) :
    stopOr fallback (a ++ b) = stopOr (stopOr fallback a) b := by
  unfold stopOr
  rw [List.getLast?_append]
  cases b.getLast? <;> simp

theorem offsetAt_append (fallback : Nat) (a b : List Token) (i : Nat) :
    offsetAt fallback (a ++ b) (a.length + i) = offsetAt (stopOr fallback a) b i := by
  unfold offsetAt
  rw [List.getElem?_append_right (Nat.le_add_right _ _), Nat.add_sub_cancel_left, stopOr_append]

namespace Blames

variable {accepts accepts' : List Token → Prop} {fallback offset i : Nat} {a tokens : List Token}

theorem congr (h : Blames accepts fallback tokens offset i)
    (hiff : ∀ ts, accepts ts ↔ accepts' ts) : Blames accepts' fallback tokens offset i where
  le := h.le
  offset_eq := h.offset_eq
  viable := h.viable.imp fun _ => (hiff _).1
  dead hi more hmore := h.dead hi more ((hiff _).2 hmore)

/-- Tokens in front only move the place, if they do not matter to what is accepted behind them. -/
theorem prepend (h : Blames accepts' (stopOr fallback a) tokens offset i)
    (hiff : ∀ ts, accepts' ts ∨ ts.head? = tokens.head? → (accepts (a ++ ts) ↔ accepts' ts)) :
    Blames accepts fallback (a ++ tokens) offset (a.length + i) where
  le := by
    rw [List.length_append]
    exact Nat.add_le_add_left h.le _
  offset_eq := h.offset_eq.trans (offsetAt_append ..).symm
  viable := by
    obtain ⟨more, hmore⟩ := h.viable
    refine ⟨more, ?_⟩
    rw [List.take_length_add_append, List.append_assoc]
    exact (hiff _ (.inl hmore)).2 hmore
  dead hi more hmore := by
    have hlong : i + 2 ≤ tokens.length := by
      rw [List.length_append] at hi
      omega
    have hhead : (tokens.take (i + 2) ++ more).head? = tokens.head? := by
      cases tokens with
      | nil => simp at hlong
      | cons t ts => rfl
    rw [Nat.add_assoc, List.take_length_add_append, List.append_assoc] at hmore
    exact h.dead hlong more ((hiff _ (.inr hhead)).1 hmore)

/-- The first token is wrong. -/
theorem of_head {t : Token} {ts : List Token} (viable : ∃ more, accepts more)
    (dead : ∀ more, ¬ accepts (t :: more)) : Blames accepts fallback (t :: ts) t.start 0 where
  le := Nat.zero_le _
  offset_eq := rfl
  viable := viable
  dead hi more := by
    cases ts with
    | nil => simp at hi
    | cons n ts => exact dead (n :: more)

end Blames

end Token

open Token (stopOr offsetAt Blames)

/-! ## Faults of grouping -/

namespace Symbol

theorem Spelled.exists_head {us : List Token} {s : Symbol} (h : Spelled us s) :
    ∃ t more, us = t :: more ∧ t.start = s.start ∧ t.kind ≠ .blank := by
  cases h with
  | @connective op t u first =>
    exact ⟨t, [u], rfl, rfl, by cases op <;> simp [first, Connective.kind]⟩
  | bang kind | openParen kind | closeParen kind | literal kind | access kind =>
    exact ⟨_, _, rfl, rfl, by simp [kind]⟩

/-- Tokens begin with no symbol because of what stands at the index `i`: those before it could have
become an operand, and with one more than that nothing is read of them but a fault. -/
structure Misfit (tokens : List Token) (offset i : Nat) : Prop where
  le : i ≤ tokens.length
  offset_eq : ∀ fallback, offset = offsetAt fallback tokens i
  viable : ∃ us symbol, Spelled (tokens.take i ++ us) symbol ∧ symbol.isOperand = true
  dead : i + 2 ≤ tokens.length → ∀ more, ∃ s ∈ read (tokens.take (i + 2) ++ more),
    s.isFault = true

/-- The literal `TRUE`. -/
theorem exists_operand : ∃ us symbol, Spelled us symbol ∧ symbol.isOperand = true :=
  ⟨[⟨.word, "TRUE", 0⟩], _, .literal rfl rfl, rfl⟩

namespace Misfit

variable {t d v n : Token} {rest : List Token}

/-- A token that is alone what only two of it may be, or that no term contains. -/
theorem of_head (h : ∀ n more, rest.head? = some n →
    ∃ s ∈ read (t :: n :: more), s.isFault = true) : Misfit (t :: rest) t.start 0 where
  le := Nat.zero_le _
  offset_eq _ := rfl
  viable := exists_operand
  dead hi more := by
    cases rest with
    | nil => simp at hi
    | cons n rest => exact h n more rfl

theorem lone {op : Connective} (ht : t.kind = op.kind)
    (hrest : ∀ n ∈ rest.head?, n.kind ≠ op.kind) : Misfit (t :: rest) t.start 0 := by
  apply of_head
  intro n more hn
  have hne := hrest n hn
  cases op with
  | or =>
    rw [Connective.kind] at ht hne
    exact ⟨.fault ⟨.disjunction, t.start⟩ t.start false, by simp [read, ht, hne], rfl⟩
  | and =>
    rw [Connective.kind] at ht hne
    exact ⟨.fault ⟨.conjunction, t.start⟩ t.start false, by simp [read, ht, hne], rfl⟩

/-- A word that is no literal, without a dot after it. -/
theorem word (ht : t.kind = .word) (hword : (ofWord t).isFault = true)
    (hrest : ∀ n ∈ rest.head?, n.kind ≠ .dot) : Misfit (t :: rest) t.start 0 := by
  apply of_head
  intro n more hn
  have hread : read (t :: n :: more) = ofWord t :: read (n :: more) :=
    read_word ht fun m hm => hrest m (hn.trans hm)
  exact ⟨ofWord t, hread ▸ List.mem_cons_self, hword⟩

/-- A dot with no word after it. -/
theorem value (ht : t.kind = .word) (hd : d.kind = .dot)
    (hrest : ∀ n ∈ rest.head?, n.kind ≠ .word) :
    Misfit (t :: d :: rest) (offsetAt 0 (t :: d :: rest) 2) 2 where
  le := by simp
  offset_eq fallback :=
    (Token.offsetAt_append 0 [t] (d :: rest) 1).trans
      (Token.offsetAt_append fallback [t] (d :: rest) 1).symm
  viable := ⟨[⟨.word, "TRUE", 0⟩], _, .access ht hd rfl, rfl⟩
  dead hi more := by
    cases rest with
    | nil => simp at hi
    | cons n rest =>
      have hn := hrest n rfl
      exact ⟨.fault ⟨.labelValue, n.start⟩ t.start true, by simp [read, ht, hd, hn], rfl⟩

/-- A third part of a label. -/
theorem third (ht : t.kind = .word) (hd : d.kind = .dot) (hv : v.kind = .word)
    (hn : n.kind = .dot) : Misfit (t :: d :: v :: n :: rest) n.start 3 where
  le := by simp
  offset_eq _ := rfl
  viable := ⟨[], _, .access ht hd hv, rfl⟩
  dead hi more := by
    cases rest with
    | nil => simp at hi
    | cons m rest =>
      refine ⟨ofAccess t v (n :: m :: more), ?_, ?_⟩
      · show _ ∈ read (t :: d :: v :: n :: m :: more)
        rw [read_access ht hd hv]
        exact List.mem_cons_self
      · rw [ofAccess, if_pos hn]
        rfl

end Misfit

/-- What is read of tokens up to the first fault. -/
inductive Reading : List Token → List Symbol → Prop
  | nil : Reading [] []
  | blank {t : Token} {ts : List Token} {symbols : List Symbol} (kind : t.kind = .blank)
      (rest : Reading ts symbols) : Reading (t :: ts) symbols
  | cons {us ts : List Token} {s : Symbol} {symbols : List Symbol} (first : Spelled us s)
      (ends : s.isOperand = true → ∀ n ∈ ts.head?, n.kind ≠ .dot) (rest : Reading ts symbols) :
      Reading (us ++ ts) (s :: symbols)
  /-- The fault is at its own first token unless this is a word. -/
  | fault {t : Token} {ts : List Token} {symbols : List Symbol} {error : TermFault} {isWord : Bool}
      {i : Nat} (misfit : Misfit (t :: ts) error.offset i)
      (isWord_or : isWord = true ∧ t.kind = .word ∨ isWord = false ∧ i = 0) :
      Reading (t :: ts) (.fault error t.start isWord :: symbols)

/-- What follows does not matter to a symbol that is no operand. -/
theorem Reading.operator {us ts : List Token} {s : Symbol} {symbols : List Symbol}
    (first : Spelled us s) (hs : s.isOperand = false) (rest : Reading ts symbols) :
    Reading (us ++ ts) (s :: symbols) :=
  .cons first (fun h => absurd h (by simp [hs])) rest

theorem Reading.word {t : Token} {ts : List Token} {symbols : List Symbol} (ht : t.kind = .word)
    (ends : ∀ n ∈ ts.head?, n.kind ≠ .dot) (rest : Reading ts symbols) :
    Reading (t :: ts) (ofWord t :: symbols) := by
  cases hword : (ofWord t).isFault with
  | false => exact .cons (spelled_ofWord ht hword) (fun _ => ends) rest
  | true =>
    have hmisfit := Misfit.word ht hword ends
    unfold ofWord at hword ⊢
    split at hword
    · cases hword
    · exact .fault hmisfit (.inl ⟨rfl, ht⟩)

theorem Reading.access {t d v : Token} {ts : List Token} {symbols : List Symbol}
    (ht : t.kind = .word) (hd : d.kind = .dot) (hv : v.kind = .word) (rest : Reading ts symbols) :
    Reading (t :: d :: v :: ts) (ofAccess t v ts :: symbols) := by
  by_cases hdot : ∃ n ∈ ts.head?, n.kind = .dot
  · obtain ⟨n, hn, hdot⟩ := hdot
    obtain ⟨more, rfl⟩ := List.head?_eq_some_iff.1 hn
    rw [ofAccess, if_pos hdot]
    exact .fault (.third ht hd hv hdot) (.inl ⟨rfl, ht⟩)
  · have ends : ∀ n ∈ ts.head?, n.kind ≠ .dot := fun n hn h => hdot ⟨n, hn, h⟩
    rw [ofAccess_of_head ends]
    exact .cons (.access ht hd hv) (fun _ => ends) rest

/-- Every token sequence can be looked at this way. -/
theorem reading (ts : List Token) : Reading ts (read ts) := by
  fun_induction read ts with
  | case1 => exact .nil
  | case2 t rest hk ih => exact .blank hk ih
  | case3 t rest hk ih => exact .operator (.bang hk) rfl ih
  | case4 t rest hk ih => exact .operator (.openParen hk) rfl ih
  | case5 t rest hk ih => exact .operator (.closeParen hk) rfl ih
  | case6 t hk u rest hu ih => exact .operator (@Spelled.connective .or t u hk hu) rfl ih
  | case7 t hk u rest hu ih =>
    have hrest : ∀ n ∈ (u :: rest).head?, n.kind ≠ Connective.or.kind := by
      simpa [Connective.kind] using hu
    exact .fault (@Misfit.lone t (u :: rest) .or hk hrest) (.inr ⟨rfl, rfl⟩)
  | case8 t hk => exact .fault (@Misfit.lone t [] .or hk (by simp)) (.inr ⟨rfl, rfl⟩)
  | case9 t hk u rest hu ih => exact .operator (@Spelled.connective .and t u hk hu) rfl ih
  | case10 t hk u rest hu ih =>
    have hrest : ∀ n ∈ (u :: rest).head?, n.kind ≠ Connective.and.kind := by
      simpa [Connective.kind] using hu
    exact .fault (@Misfit.lone t (u :: rest) .and hk hrest) (.inr ⟨rfl, rfl⟩)
  | case11 t hk => exact .fault (@Misfit.lone t [] .and hk (by simp)) (.inr ⟨rfl, rfl⟩)
  | case12 t hk d v rest hd hv ih => exact .access hk hd hv ih
  | case13 t hk d v rest hd hv ih =>
    exact .fault (.value hk hd (by simpa using hv)) (.inl ⟨rfl, hk⟩)
  | case14 t hk u v rest hu ih => exact .word hk (by simpa using hu) ih
  | case15 t hk d hd => exact .fault (.value hk hd (by simp)) (.inl ⟨rfl, hk⟩)
  | case16 t hk u hu ih => exact .word hk (by simpa using hu) ih
  | case17 t hk => exact .word hk (by simp) .nil
  | case18 t rest =>
    refine .fault (Misfit.of_head fun n more _ => ?_) (.inr ⟨rfl, rfl⟩)
    exact ⟨.fault ⟨.termToken, t.start⟩ t.start false, by simp [read, *], rfl⟩

/-- Nothing that is read of the tokens is a fault. -/
def Clear (ts : List Token) : Prop := ∀ s ∈ read ts, s.isFault = false

theorem Spelled.isFault {us : List Token} {s : Symbol} (h : Spelled us s) : s.isFault = false := by
  cases h <;> rfl

theorem Forms.clear {ts : List Token} {symbols : List Symbol} (h : Forms ts symbols) :
    Clear ts := by
  unfold Clear
  rw [h.read_eq]
  induction h with
  | nil => nofun
  | blank _ _ ih => exact ih
  | cons first _ ih => exact List.forall_mem_cons.2 ⟨first.isFault, ih⟩

theorem Clear.head_ne_dot {ts : List Token} (h : Clear ts) : ∀ n ∈ ts.head?, n.kind ≠ .dot :=
  (forms_read h).head_ne_dot

theorem head_ne_dot_of_or {us ts : List Token} (h : Clear us ∨ us.head? = ts.head?)
    (ends : ∀ n ∈ ts.head?, n.kind ≠ .dot) : ∀ n ∈ us.head?, n.kind ≠ .dot := by
  obtain hclear | hhead := h
  · exact hclear.head_ne_dot
  · rwa [hhead]

/-- A misfit is to blame for every reader that refuses faults, if it takes what stands before. -/
theorem Misfit.blames {accepts : List Token → Prop} {fallback offset i : Nat} {ts : List Token}
    (h : Misfit ts offset i) (clear : ∀ us, accepts us → Clear us)
    (viable : ∃ more, accepts (ts.take i ++ more)) : Blames accepts fallback ts offset i where
  le := h.le
  offset_eq := h.offset_eq fallback
  viable := viable
  dead hi more hmore := by
    obtain ⟨s, hs, hfault⟩ := h.dead hi more
    rw [clear _ hmore s hs] at hfault
    cases hfault

/-! ## Label accesses -/

theorem clear_iff_accesses {ts : List Token} : (∃ as, accesses (read ts) = .ok as) ↔ Clear ts := by
  refine ⟨fun ⟨as, has⟩ => isFault_of_accesses has, fun h => ?_⟩
  unfold Clear at h
  generalize read ts = symbols at h ⊢
  induction symbols with
  | nil => exact ⟨[], rfl⟩
  | cons s symbols ih =>
    obtain ⟨hs, hsymbols⟩ := List.forall_mem_cons.1 h
    obtain ⟨as, has⟩ := ih hsymbols
    exact ⟨_, accesses_cons hs has⟩

theorem accesses_of_cons_error {s : Symbol} {symbols : List Symbol} {error : TermFault}
    (hs : s.isFault = false) (h : accesses (s :: symbols) = .error error) :
    accesses symbols = .error error := by
  cases s with
  | fault => cases hs
  | access a =>
    rw [accesses] at h
    cases hmore : accesses symbols with
    | ok as =>
      rw [hmore] at h
      cases h
    | error e =>
      rw [hmore] at h
      exact h
  | _ => exact h

theorem Reading.accesses_blames {ts : List Token} {symbols : List Symbol} {error : TermFault}
    (hr : Reading ts symbols) (h : accesses symbols = .error error) (fallback : Nat) :
    ∃ i, Blames Clear fallback ts error.offset i := by
  induction hr generalizing fallback with
  | nil => cases h
  | @blank t ts symbols kind rest ih =>
    obtain ⟨i, hi⟩ := ih h (stopOr fallback [t])
    refine ⟨_, hi.prepend (a := [t]) fun us _ => ?_⟩
    unfold Clear
    rw [List.singleton_append, read_blank kind]
  | @cons us ts s symbols first ends rest ih =>
    obtain ⟨i, hi⟩ := ih (accesses_of_cons_error first.isFault h) (stopOr fallback us)
    refine ⟨_, hi.prepend fun vs hvs => ?_⟩
    have hends : s.isOperand = true → ∀ n ∈ vs.head?, n.kind ≠ .dot := fun hoperand =>
      head_ne_dot_of_or hvs (ends hoperand)
    unfold Clear
    rw [first.read_front hends, List.forall_mem_cons, and_iff_right first.isFault]
  | fault misfit =>
    cases h
    obtain ⟨us, symbol, hspelled, -⟩ := misfit.viable
    exact ⟨_, misfit.blames (fun us h => h) ⟨us, (Forms.single hspelled).clear⟩⟩

end Symbol

/-! ## Terms -/

namespace Term.State

open LabelFlow.Symbol (Spelled Reading Clear)

variable {s s' : State} {symbol : Symbol} {us ts : List Token} {error : TermFault}

/-- From this state the tokens lead to the end of a term. -/
def Accepts (s : State) (tokens : List Token) : Prop :=
  ∃ disjunct conjunct, s.Steps (Symbol.read tokens) ⟨[], .operator disjunct conjunct⟩

theorem Accepts.clear (h : s.Accepts ts) : Clear ts := by
  obtain ⟨d, c, hsteps⟩ := h
  exact isFault_of_steps hsteps

theorem accepts_blank_iff {t : Token} (ht : t.kind = .blank) :
    s.Accepts (t :: ts) ↔ s.Accepts ts := by
  unfold Accepts
  rw [Symbol.read_blank ht]

theorem accepts_append_iff (hspelled : Spelled us symbol) (hstep : s.step symbol = .ok s')
    (ends : symbol.isOperand = true → ∀ n ∈ ts.head?, n.kind ≠ .dot) :
    s.Accepts (us ++ ts) ↔ s'.Accepts ts := by
  unfold Accepts
  simp only [hspelled.read_front ends, steps_cons_iff, hstep, Except.ok.injEq, exists_eq_left']

/-- Every operator position can be continued by closing what is open. -/
theorem exists_accepts_operator (outer : List (Span × Level)) (disjunct : Option Term)
    (conjunct : Term) : ∃ more, Accepts ⟨outer, .operator disjunct conjunct⟩ more := by
  induction outer generalizing disjunct conjunct with
  | nil => exact ⟨[], disjunct, conjunct, rfl⟩
  | cons group outer ih =>
    obtain ⟨more, hmore⟩ := ih group.2.disjunct _
    exact ⟨⟨.closeParen, ")", 0⟩ :: more,
      (accepts_append_iff (.closeParen rfl) rfl nofun).2 hmore⟩

/-- After an operand, if one is expected, a term can be completed. -/
theorem exists_accepts_operand {outer : List (Span × Level)} {level : Level}
    (hspelled : Spelled us symbol) (hoperand : symbol.isOperand = true) :
    ∃ more, Accepts ⟨outer, .operand level⟩ (us ++ more) := by
  obtain ⟨e, hstep⟩ : ∃ e, step ⟨outer, .operand level⟩ symbol = .ok ⟨outer, level.supply e⟩ := by
    cases hspelled with
    | literal => exact ⟨_, rfl⟩
    | access => exact ⟨_, rfl⟩
    | _ => cases hoperand
  obtain ⟨more, hmore⟩ := exists_accepts_operator outer level.disjunct _
  exact ⟨more, (accepts_append_iff hspelled hstep fun _ => hmore.clear.head_ne_dot).2 hmore⟩

theorem exists_accepts (s : State) : ∃ more, s.Accepts more := by
  obtain ⟨outer, focus⟩ := s
  cases focus with
  | operator disjunct conjunct => exact exists_accepts_operator outer disjunct conjunct
  | operand level =>
    obtain ⟨us, symbol, hspelled, hoperand⟩ := Symbol.exists_operand
    obtain ⟨more, hmore⟩ := exists_accepts_operand hspelled hoperand
    exact ⟨us ++ more, hmore⟩

/-- The kinds of tokens with which a symbol may begin here. -/
def Expects (s : State) (k : Kind) : Prop :=
  match s.focus with
  | .operand _ => k = .bang ∨ k = .openParen ∨ k = .word
  | .operator _ _ => k = .amp ∨ k = .pipe ∨ k = .closeParen ∧ s.outer ≠ []

/-- Whether a symbol is taken depends on the kind of its first token only. -/
theorem step_eq_ok_iff_expects {t : Token} (hspelled : Spelled us symbol) (ht : us.head? = some t) :
    (∃ s', s.step symbol = .ok s') ↔ s.Expects t.kind := by
  obtain ⟨outer, focus⟩ := s
  cases focus with
  | operand level =>
    cases hspelled with
    | @connective op u v first =>
      cases ht
      cases op <;> simp [step, Expects, first, Connective.kind]
    | _ => cases ht; simp_all [step, Expects]
  | operator disjunct conjunct =>
    cases hspelled with
    | @connective op u v first =>
      cases ht
      cases op <;> simp [step, Expects, first, Connective.kind]
    | closeParen kind => cases ht; cases outer <;> simp [step, Expects, kind]
    | _ => cases ht; cases outer <;> simp_all [step, Expects]

/-- What begins with a token of an unexpected kind is not accepted. -/
theorem not_accepts_cons {t : Token} (ht : ¬ s.Expects t.kind) (hblank : t.kind ≠ .blank) :
    ¬ s.Accepts (t :: ts) := by
  intro h
  have hforms := Symbol.forms_read h.clear
  obtain ⟨d, c, hsteps⟩ := h
  generalize hts : t :: ts = tokens at hforms hsteps
  generalize Symbol.read tokens = symbols at hforms hsteps
  cases hforms with
  | nil => cases hts
  | blank kind =>
    cases hts
    exact hblank kind
  | @cons us vs symbol symbols first rest =>
    obtain ⟨s', hstep, -⟩ := steps_cons_iff.1 hsteps
    have hhead : us.head? = some t := by
      cases first <;> cases hts <;> rfl
    exact ht ((step_eq_ok_iff_expects first hhead).1 ⟨s', hstep⟩)

/-- A symbol that is not taken makes its own first token wrong. -/
theorem blames_spelled {fallback : Nat} (hspelled : Spelled us symbol)
    (hstep : ∀ s', s.step symbol ≠ .ok s') :
    Blames s.Accepts fallback (us ++ ts) symbol.start 0 := by
  obtain ⟨t, more, rfl, hstart, hblank⟩ := hspelled.exists_head
  rw [← hstart]
  refine .of_head s.exists_accepts fun more => not_accepts_cons (fun hexpects => ?_) hblank
  obtain ⟨s', hs'⟩ := (step_eq_ok_iff_expects hspelled rfl).2 hexpects
  exact hstep s' hs'

/-- A symbol that is not taken is reported where it starts. -/
theorem offset_of_step (h : s.step symbol = .error error) (hsymbol : symbol.isFault = false) :
    error.offset = symbol.start := by
  obtain ⟨outer, focus⟩ := s
  cases focus with
  | operand level =>
    cases symbol with
    | fault => cases hsymbol
    | closeParen => cases h; rfl
    | connective => cases h; rfl
    | _ => cases h
  | operator disjunct conjunct =>
    cases symbol with
    | connective op => cases op <;> cases h
    | _ => cases outer <;> cases h <;> rfl

theorem finish_eq_error {stop : Nat} (h : s.finish stop = .error error) : error.offset = stop := by
  obtain ⟨outer, focus⟩ := s
  cases focus with
  | operand level => cases h; rfl
  | operator disjunct conjunct => cases outer <;> cases h; rfl

/-- Tokens that begin no symbol are refused where they are a misfit if they may still become the
operand that is expected, and at their first token if not. -/
theorem blames_fault {t : Token} {e : TermFault} {isWord : Bool} {i fallback : Nat}
    (misfit : Symbol.Misfit (t :: ts) e.offset i)
    (isWord_or : isWord = true ∧ t.kind = .word ∨ isWord = false ∧ i = 0)
    (h : s.step (.fault e t.start isWord) = .error error) :
    ∃ i, Blames s.Accepts fallback (t :: ts) error.offset i := by
  have hclear : ∀ us, s.Accepts us → Clear us := fun us h => h.clear
  obtain ⟨outer, focus⟩ := s
  cases focus with
  | operand level =>
    have hoffset : error.offset = e.offset := by
      obtain ⟨rfl, -⟩ | ⟨rfl, rfl⟩ := isWord_or
      · cases h
        rfl
      · cases h
        exact (misfit.offset_eq 0).symm
    obtain ⟨us, symbol, hspelled, hoperand⟩ := misfit.viable
    obtain ⟨more, hmore⟩ := exists_accepts_operand hspelled hoperand
    rw [List.append_assoc] at hmore
    exact ⟨i, hoffset ▸ misfit.blames hclear ⟨_, hmore⟩⟩
  | operator disjunct conjunct =>
    have hoffset : error.offset = t.start := by
      cases outer <;> cases h <;> rfl
    -- no operand fits here, so a word is wrong as soon as it begins
    obtain ⟨-, hword⟩ | ⟨-, rfl⟩ := isWord_or
    · rw [hoffset]
      refine ⟨0, .of_head (exists_accepts _) fun more => not_accepts_cons ?_ (by simp [hword])⟩
      simp [Expects, hword]
    · rw [hoffset, show t.start = e.offset from (misfit.offset_eq 0).symm]
      exact ⟨0, misfit.blames hclear (exists_accepts _)⟩

/-- What a state refuses in tokens is to blame, and is found where it says. -/
theorem blames {symbols : List Symbol} {fallback : Nat} (hr : Reading ts symbols)
    (h : symbols.foldlM step s >>= finish (stopOr fallback ts) = .error error) :
    ∃ i, Blames s.Accepts fallback ts error.offset i := by
  -- the fallback is where the tokens before these end, so it moves along with the state
  induction hr generalizing s fallback with
  | nil =>
    -- the end comes too early, and closing what is open would do
    exact ⟨0, Nat.le_refl 0, finish_eq_error h, s.exists_accepts, nofun⟩
  | @blank t ts symbols kind rest ih =>
    rw [← List.singleton_append, Token.stopOr_append] at h
    obtain ⟨i, hi⟩ := ih h
    exact ⟨_, hi.prepend (a := [t]) fun us _ => accepts_blank_iff kind⟩
  | @cons us ts symbol symbols first ends rest ih =>
    rw [List.foldlM_cons] at h
    cases hstep : s.step symbol with
    | error e =>
      rw [hstep] at h
      cases h
      rw [offset_of_step hstep first.isFault]
      exact ⟨0, blames_spelled first (by simp [hstep])⟩
    | ok s' =>
      rw [hstep, Token.stopOr_append] at h
      obtain ⟨i, hi⟩ := ih h
      exact ⟨_, hi.prepend fun vs hvs => accepts_append_iff first hstep fun hoperand =>
        Symbol.head_ne_dot_of_or (hvs.imp_left Accepts.clear) (ends hoperand)⟩
  | @fault t ts symbols e isWord i misfit isWord_or =>
    rw [List.foldlM_cons] at h
    cases hstep : s.step (.fault e t.start isWord) with
    | ok s' => cases isFault_of_step hstep
    | error e' =>
      rw [hstep] at h
      cases h
      exact blames_fault misfit isWord_or hstep

end Term.State

namespace Term

theorem exists_parse_iff {tokens : List Token} :
    (∃ e, parse tokens = .ok e) ↔ State.start.Accepts tokens := by
  simp only [parse_eq_ok_iff_steps]
  exact ⟨fun ⟨e, d, c, h, _⟩ => ⟨d, c, h⟩, fun ⟨d, c, h⟩ => ⟨_, d, c, h, rfl⟩⟩

end Term

/-- Tokens that are refused as a term, nested or flat, are refused at an index up to which they
could still become one, and never more than one token before they no longer could. -/
theorem term_faults_located (tokens : List Token) (error : TermFault) :
    (Term.parse tokens = .error error →
      ∃ i, Blames (fun ts => ∃ e, Term.parse ts = .ok e) 0 tokens error.offset i) ∧
    (Access.ofTokens tokens = .error error →
      ∃ i, Blames (fun ts => ∃ as, Access.ofTokens ts = .ok as) 0 tokens error.offset i) := by
  constructor
  · intro h
    obtain ⟨i, hi⟩ := Term.State.blames (Symbol.reading tokens) h
    exact ⟨i, hi.congr fun ts => Term.exists_parse_iff.symm⟩
  · intro h
    obtain ⟨i, hi⟩ := (Symbol.reading tokens).accesses_blames h 0
    exact ⟨i, hi.congr fun ts => Symbol.clear_iff_accesses.symm⟩

/-- A conjunction without its second operand is refused where it ends, a label with a third part at
the dot of that part. -/
theorem term_faults_located_ends :
    Term.parse (Token.ofLine "TRUE && ") = .error ⟨.operand, 8⟩ ∧
    (∃ i, Blames (fun ts => ∃ e, Term.parse ts = .ok e) 0 (Token.ofLine "TRUE && ") 8 i) ∧
    Access.ofTokens (Token.ofLine "!A.b.c") = .error ⟨.accessEnd, 4⟩ ∧
    ∃ i, Blames (fun ts => ∃ as, Access.ofTokens ts = .ok as) 0 (Token.ofLine "!A.b.c") 4 i := by
  have hparse : Term.parse (Token.ofLine "TRUE && ") = .error ⟨.operand, 8⟩ := rfl
  have hscan : Access.ofTokens (Token.ofLine "!A.b.c") = .error ⟨.accessEnd, 4⟩ := rfl
  exact ⟨hparse, (term_faults_located _ _).1 hparse, hscan, (term_faults_located _ _).2 hscan⟩

end LabelFlow
