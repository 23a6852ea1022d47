import LabelFlow.Term.Symbol

/-!
# Tokens that fall into symbols

`Symbol.Spelled` says which tokens make one symbol and `Symbol.Forms` which tokens are a sequence of
them, blanks aside. `Symbol.read` finds exactly these symbols if it meets no fault (`forms_read`,
`Symbol.Forms.read_eq`).
-/

set_option autoImplicit false

namespace LabelFlow

/-- The tokens that a connective is written with twice. -/
def Connective.kind : Connective → Kind
  | .and => .amp
  | .or => .pipe

namespace Symbol

/-- Tokens that make no symbol. -/
def isFault : Symbol → Bool
  | .fault _ _ _ => true
  | _ => false

/-- A literal or a label access. -/
def isOperand : Symbol → Bool
  | .literal _ _ | .access _ => true
  | _ => false

/-- Tokens that make one symbol. -/
inductive Spelled : List Token → Symbol → Prop
  | bang {t : Token} (kind : t.kind = .bang) : Spelled [t] (.bang t.span)
  | openParen {t : Token} (kind : t.kind = .openParen) : Spelled [t] (.openParen t.span)
  | closeParen {t : Token} (kind : t.kind = .closeParen) : Spelled [t] (.closeParen t.span)
  | connective {op : Connective} {t u : Token} (first : t.kind = op.kind)
      (second : u.kind = op.kind) : Spelled [t, u] (.connective op t.start)
  | literal {t : Token} {value : Bool} (kind : t.kind = .word)
      (text : literalValue? t.text = some value) : Spelled [t] (.literal value t.span)
  | access {t d v : Token} (labelType : t.kind = .word) (dot : d.kind = .dot)
      (value : v.kind = .word) : Spelled [t, d, v] (.access ⟨.ofToken t, .ofToken v⟩)

/-- A sequence of symbols with blanks between them. -/
inductive Forms : List Token → List Symbol → Prop
  | nil : Forms [] []
  | blank {t : Token} {ts : List Token} {symbols : List Symbol} (kind : t.kind = .blank)
      (rest : Forms ts symbols) : Forms (t :: ts) symbols
  | cons {us ts : List Token} {s : Symbol} {symbols : List Symbol} (first : Spelled us s)
      (rest : Forms ts symbols) : Forms (us ++ ts) (s :: symbols)

/-- No symbol begins with a dot. -/
theorem Spelled.head_ne_dot {us ts : List Token} {s : Symbol} (h : Spelled us s) :
    ∀ n ∈ (us ++ ts).head?, n.kind ≠ .dot := by
  intro n hn hd
  cases h with
  | @connective op t u first =>
    cases hn
    rw [hd] at first
    cases op <;> cases first
  | bang kind | openParen kind | closeParen kind | literal kind | access kind =>
    cases hn
    simp [hd] at kind

/-- A word that no dot follows is read by itself. -/
theorem read_word {t : Token} {rest : List Token} (ht : t.kind = .word)
    (h : ∀ n ∈ rest.head?, n.kind ≠ .dot) : read (t :: rest) = ofWord t :: read rest := by
  rw [read.eq_def]
  cases rest with
  | nil => simp [ht, read]
  | cons n rest =>
    have hn : n.kind ≠ .dot := h n rfl
    cases rest <;> simp [ht, hn]

theorem read_access {t d v : Token} {rest : List Token} (ht : t.kind = .word)
    (hd : d.kind = .dot) (hv : v.kind = .word) :
    read (t :: d :: v :: rest) = ofAccess t v rest :: read rest := by
  rw [read.eq_def]
  simp [ht, hd, hv]

theorem read_blank {t : Token} {rest : List Token} (ht : t.kind = .blank) :
    read (t :: rest) = read rest := by
  rw [read.eq_def]
  simp [ht]

theorem ofAccess_of_head {t v : Token} {rest : List Token} (h : ∀ n ∈ rest.head?, n.kind ≠ .dot) :
    ofAccess t v rest = .access ⟨.ofToken t, .ofToken v⟩ := by
  cases rest with
  | nil => rfl
  | cons n rest => exact if_neg (h n rfl)

/-- A symbol is read off the front. Only an operand must not have a dot after it. -/
theorem Spelled.read_front {us ts : List Token} {s : Symbol} (h : Spelled us s)
    (ends : s.isOperand = true → ∀ n ∈ ts.head?, n.kind ≠ .dot) :
    read (us ++ ts) = s :: read ts := by
  cases h with
  | bang kind | openParen kind | closeParen kind =>
    rw [List.singleton_append, read.eq_def]
    simp [kind]
  | @connective op t u first second => cases op <;> simp_all [Connective.kind, read]
  | literal kind text =>
    rw [List.singleton_append, read_word kind (ends rfl), ofWord, text]
  | access labelType dot value =>
    rw [List.cons_append, List.cons_append, List.singleton_append, read_access labelType dot value,
      ofAccess_of_head (ends rfl)]

namespace Forms

variable {ts us : List Token} {symbols more : List Symbol}

theorem head_ne_dot (h : Forms ts symbols) : ∀ n ∈ ts.head?, n.kind ≠ .dot := by
  cases h with
  | nil => nofun
  | blank kind =>
    intro n hn hd
    cases hn
    rw [hd] at kind
    cases kind
  | cons first => exact first.head_ne_dot

/-- What is read of a sequence of symbols. -/
theorem read_eq (h : Forms ts symbols) : read ts = symbols := by
  induction h with
  | nil => rfl
  | blank kind _ ih => rw [read_blank kind, ih]
  | cons first rest ih => rw [first.read_front fun _ => rest.head_ne_dot, ih]

theorem append (h : Forms ts symbols) (h' : Forms us more) : Forms (ts ++ us) (symbols ++ more) := by
  induction h with
  | nil => exact h'
  | blank kind _ ih => exact .blank kind ih
  | cons first _ ih =>
    rw [List.append_assoc]
    exact .cons first ih

theorem single {s : Symbol} (h : Spelled us s) : Forms us [s] := by
  simpa using Forms.cons h .nil

end Forms

theorem isFault_ofAccess {t v : Token} {rest : List Token} (h : (ofAccess t v rest).isFault = false) :
    ofAccess t v rest = .access ⟨.ofToken t, .ofToken v⟩ := by
  unfold ofAccess at h ⊢
  split at h
  · split at h
    · cases h
    · rename_i hn
      exact if_neg hn
  · rfl

theorem spelled_ofWord {t : Token} (kind : t.kind = .word) (h : (ofWord t).isFault = false) :
    Spelled [t] (ofWord t) := by
  unfold ofWord at h ⊢
  split at h
  · rename_i value text
    exact .literal kind text
  · cases h

/-- Tokens are the symbols read of them if none is a fault. -/
theorem forms_read {ts : List Token} (h : ∀ s ∈ read ts, s.isFault = false) :
    Forms ts (read ts) := by
  fun_induction read ts with
  | case1 => exact .nil
  | case2 t rest hk ih => exact .blank hk (ih h)
  | case3 t rest hk ih => exact .cons (.bang hk) (ih (List.forall_mem_cons.1 h).2)
  | case4 t rest hk ih => exact .cons (.openParen hk) (ih (List.forall_mem_cons.1 h).2)
  | case5 t rest hk ih => exact .cons (.closeParen hk) (ih (List.forall_mem_cons.1 h).2)
  | case6 t hk u rest hu ih =>
    exact .cons (@Spelled.connective .or t u hk hu) (ih (List.forall_mem_cons.1 h).2)
  | case9 t hk u rest hu ih =>
    exact .cons (@Spelled.connective .and t u hk hu) (ih (List.forall_mem_cons.1 h).2)
  | case12 t hk d v rest hd hv ih =>
    obtain ⟨hfirst, hrest⟩ := List.forall_mem_cons.1 h
    rw [isFault_ofAccess hfirst]
    exact .cons (.access hk hd hv) (ih hrest)
  | case14 t hk u v rest hu ih =>
    obtain ⟨hfirst, hrest⟩ := List.forall_mem_cons.1 h
    exact .cons (spelled_ofWord hk hfirst) (ih hrest)
  | case16 t hk u hu ih =>
    obtain ⟨hfirst, hrest⟩ := List.forall_mem_cons.1 h
    exact .cons (spelled_ofWord hk hfirst) (ih hrest)
  | case17 t hk => exact .single (spelled_ofWord hk (h _ List.mem_cons_self))
  -- all others begin with a fault
  | _ => cases h _ List.mem_cons_self

end Symbol

end LabelFlow
