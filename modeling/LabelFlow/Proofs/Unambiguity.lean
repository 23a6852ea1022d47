import LabelFlow.Proofs.Assignment

/-!
# Layouts are unambiguous

`Layout.Assignment.eq_of_chars`: a line is the layout of an Assignment statement in at most one way.
Each part ends at the first character that cannot belong to it (`cut_unique`), and a list falls into
its parts at its separators.
-/

set_option autoImplicit false

namespace LabelFlow

open Layout

/-- Two ways to cut a list at the first element outside a class are one. -/
theorem cut_unique {α : Type} (p : α → Bool) {a a' b b' : List α} (ha : ∀ x ∈ a, p x = true)
    (ha' : ∀ x ∈ a', p x = true) (hb : ∀ x ∈ b.head?, p x = false)
    (hb' : ∀ x ∈ b'.head?, p x = false) (h : a ++ b = a' ++ b') : a = a' ∧ b = b' := by
  have h1 := congrArg (List.takeWhile p) h
  have h2 := congrArg (List.dropWhile p) h
  rw [takeWhile_append_stop ha hb, takeWhile_append_stop ha' hb'] at h1
  rw [dropWhile_append_stop ha hb, dropWhile_append_stop ha' hb'] at h2
  exact ⟨h1, h2⟩

theorem cut_unique_cons {α : Type} (p : α → Bool) {a a' b b' : List α} {x : α} (hx : p x = false)
    (ha : ∀ y ∈ a, p y = true) (ha' : ∀ y ∈ a', p y = true) (h : a ++ x :: b = a' ++ x :: b') :
    a = a' ∧ b = b' := by
  have hhead : ∀ {c : List α}, ∀ y ∈ (x :: c).head?, p y = false := by
    intro c y hy
    cases hy
    exact hx
  obtain ⟨h1, h2⟩ := cut_unique p ha ha' hhead hhead h
  exact ⟨h1, (List.cons.inj h2).2⟩

/-- Two ways to cut a list at the first place of an element are one. -/
theorem cut_unique_first {α : Type} [DecidableEq α] {a a' b b' : List α} {x : α} (ha : x ∉ a)
    (ha' : x ∉ a') (h : a ++ x :: b = a' ++ x :: b') : a = a' ∧ b = b' :=
  cut_unique_cons (· != x) (bne_self_eq_false x) (fun _ hy => bne_iff_ne.2 fun e => ha (e ▸ hy))
    (fun _ hy => bne_iff_ne.2 fun e => ha' (e ▸ hy)) h

theorem map_inj_of_forall {α β : Type} {f : α → β} {ok : α → Prop}
    (hf : ∀ x y, ok x → ok y → f x = f y → x = y) {xs ys : List α} (hx : ∀ x ∈ xs, ok x)
    (hy : ∀ y ∈ ys, ok y) (h : xs.map f = ys.map f) : xs = ys := by
  induction xs generalizing ys with
  | nil => exact (List.map_eq_nil_iff.1 h.symm).symm
  | cons x xs ih =>
    cases ys with
    | nil => cases h
    | cons y ys =>
      obtain ⟨h1, h2⟩ := List.cons.inj h
      obtain ⟨hx1, hx2⟩ := List.forall_mem_cons.1 hx
      obtain ⟨hy1, hy2⟩ := List.forall_mem_cons.1 hy
      rw [hf x y hx1 hy1 h1, ih hx2 hy2 h2]

/-- A list falls into stretches without separators in one way. -/
theorem join_inj {s : Char} {first first' : List Char} {more more' : List (List Char)}
    (h : ∀ x ∈ first :: more, s ∉ x) (h' : ∀ x ∈ first' :: more', s ∉ x)
    (he : first ++ more.flatMap (s :: ·) = first' ++ more'.flatMap (s :: ·)) :
    first = first' ∧ more = more' := by
  have hs : (s == s) = true := beq_self_eq_true s
  have hno : ∀ {xs : List (List Char)}, (∀ x ∈ xs, s ∉ x) →
      ∀ x ∈ xs, ∀ y ∈ x, (y == s) = false := by
    intro xs hxs x hx y hy
    exact beq_eq_false_iff_ne.2 fun e => hxs x hx (e ▸ hy)
  have heq := congrArg (Pieces.cut fun y => y == s) he
  rw [Pieces.cut_join (p := (· == s)) hs (hno h), Pieces.cut_join (p := (· == s)) hs (hno h')]
    at heq
  obtain ⟨h1, h2⟩ := Pieces.mk.inj heq
  have hmore := congrArg (List.map Prod.snd) h2
  simp only [List.map_map, Function.comp_def, List.map_id'] at hmore
  exact ⟨h1, hmore⟩

namespace Layout

section
variable {α : Type} {written : α → List Char} {ok : α → Prop}

/-- Blanks around a core that has none. -/
theorem Padded.eq_of_chars
    (hcore : ∀ x, ok x → written x ≠ [] ∧ ∀ c ∈ written x, Text.isBlank c = false)
    (hinj : ∀ x y, ok x → ok y → written x = written y → x = y) {p q : Padded α} (hp : p.Valid ok)
    (hq : q.Valid ok) (h : p.chars written = q.chars written) : p = q := by
  obtain ⟨a, x, z⟩ := p
  obtain ⟨a', x', z'⟩ := q
  have hhead : ∀ {y : α} {b : List Char}, ok y →
      ∀ c ∈ (written y ++ b).head?, Text.isBlank c = false := by
    intro y b hy c hc
    obtain ⟨d, w, hd⟩ := List.exists_cons_of_ne_nil (hcore y hy).1
    rw [hd] at hc
    cases hc
    exact (hcore y hy).2 c (by simp [hd])
  obtain ⟨h1, h2⟩ := cut_unique Text.isBlank hp.before hq.before (hhead hp.core) (hhead hq.core) h
  have hafter : ∀ {b : List Char}, Text.Blank b → ∀ c ∈ b.head?, (!Text.isBlank c) = false :=
    fun hb c hc => by rw [hb c (List.mem_of_head? hc)]; rfl
  obtain ⟨h3, h4⟩ := cut_unique (fun c => !Text.isBlank c)
    (fun c hc => by rw [(hcore x hp.core).2 c hc]; rfl)
    (fun c hc => by rw [(hcore x' hq.core).2 c hc]; rfl) (hafter hp.after) (hafter hq.after) h2
  simp only at h1 h4
  rw [h1, hinj x x' hp.core hq.core h3, h4]

theorem Listing.eq_of_chars
    (hcore : ∀ x, ok x → written x ≠ [] ∧ ∀ c ∈ written x, Text.isBlank c = false)
    (hinj : ∀ x y, ok x → ok y → written x = written y → x = y)
    (hcomma : ∀ p : Padded α, p.Valid ok → ',' ∉ p.chars written) {l l' : Listing α}
    (hl : l.Valid ok) (hl' : l'.Valid ok) (h : l.chars written = l'.chars written) : l = l' := by
  -- a list with parts has a character that is not blank
  have hparts : ∀ {cs : List Char} {first : Padded α} {more : List (Padded α)}, Text.Blank cs →
      (parts first more).Valid ok → cs ≠ (parts first more).chars written := by
    intro cs first more hcs hv he
    have hfirst := hcore first.core (hv first (by simp)).core
    obtain ⟨c, hc⟩ := List.exists_mem_of_ne_nil _ hfirst.1
    have hfalse : ((parts first more).chars written).all Text.isBlank = false :=
      not_blank_of_parts ⟨c, hc, hfirst.2 c hc⟩
    rw [← he, List.all_eq_true.2 hcs] at hfalse
    cases hfalse
  cases l with
  | blank cs =>
    cases l' with
    | blank cs' => exact congrArg blank h
    | parts first more => exact absurd h (hparts hl hl')
  | parts first more =>
    cases l' with
    | blank cs => exact absurd h.symm (hparts hl' hl)
    | parts first' more' =>
      have hno : ∀ {f : Padded α} {m : List (Padded α)}, (parts f m).Valid ok →
          ∀ x ∈ f.chars written :: m.map (Padded.chars written), ',' ∉ x := by
        intro f m hv
        rw [← List.map_cons, List.forall_mem_map]
        exact fun p hp => hcomma p (hv p hp)
      rw [chars, chars, NameList.trailing_eq, NameList.trailing_eq] at h
      obtain ⟨h1, h2⟩ := join_inj (hno hl) (hno hl') h
      have heq : first :: more = first' :: more' :=
        map_inj_of_forall (fun x y hx hy => Padded.eq_of_chars hcore hinj hx hy) hl hl'
          (by rw [List.map_cons, List.map_cons, h1, h2])
      obtain ⟨rfl, rfl⟩ := List.cons.inj heq
      rfl

end

theorem Path.eq_of_chars (p q : Path) (hp : p.Valid) (hq : q.Valid) (h : p.chars = q.chars) :
    p = q := by
  obtain ⟨w, value, extra⟩ := p
  obtain ⟨w', value', extra'⟩ := q
  have hno : ∀ {w value : List Char} {extra : List (List Char)}, Path.Valid ⟨w, value, extra⟩ →
      ∀ x ∈ w :: value :: extra, '.' ∉ x := by
    intro w value extra hv
    refine List.forall_mem_cons.2 ⟨hv.labelType.2.not_mem (by decide), fun x hx => ?_⟩
    exact Text.Wordy.not_mem (hv.segments x hx) (by decide)
  obtain ⟨h1, h2⟩ := join_inj (hno hp) (hno hq) h
  obtain ⟨rfl, rfl⟩ := List.cons.inj h2
  rw [h1]

/-- A line is the layout of an Assignment statement in at most one way. -/
theorem Assignment.eq_of_chars {minLength : Nat} {l l' : Assignment} (hl : l.Valid minLength)
    (hl' : l'.Valid minLength) (h : l.chars = l'.chars) : l = l' := by
  obtain ⟨p1, i, p2, t, p3, o, p4⟩ := l
  obtain ⟨p1', i', p2', t', p3', o', p4'⟩ := l'
  have hin : ∀ {k : Listing (List Char)}, k.Valid (InputName minLength) →
      ∀ c ∈ k.chars id, (c != '\x7d') = true := by
    intro k hk c hc
    exact bne_iff_ne.2 fun e => LabelFlow.Assignment.not_mem_inputs hk (e ▸ hc)
  have hout : ∀ {k : Listing Path}, k.Valid Path.Valid →
      ∀ c ∈ k.chars Path.chars, (c != '\x7d') = true := by
    intro k hk c hc
    exact bne_iff_ne.2 fun e => LabelFlow.Assignment.not_mem_outputs hk (e ▸ hc)
  have hparen : ∀ {cs : List Char}, Text.Parens cs → ∀ c ∈ cs, (Kind.ofChar c).isParen = true :=
    fun hcs => Token.isParen_class.2 hcs
  have hterm : ∀ {cs : List Char}, Text.TermText cs →
      ∀ c ∈ cs, (Kind.ofChar c).isTermPart = true :=
    fun hcs => LabelFlow.Assignment.isTermPart_class.2 hcs
  have h0 := List.append_cancel_left h
  obtain ⟨rfl, h1⟩ := cut_unique_cons (fun c => (Kind.ofChar c).isParen) rfl (hparen hl.parens₁)
    (hparen hl'.parens₁) h0
  obtain ⟨h2, h3⟩ := cut_unique_cons (· != '\x7d') rfl (hin hl.inputs) (hin hl'.inputs) h1
  obtain ⟨rfl, h4⟩ := cut_unique_cons (fun c => (Kind.ofChar c).isParen) rfl (hparen hl.parens₂)
    (hparen hl'.parens₂) h3
  obtain ⟨rfl, h5⟩ := cut_unique_cons (fun c => (Kind.ofChar c).isTermPart) rfl (hterm hl.term)
    (hterm hl'.term) h4
  obtain ⟨rfl, h6⟩ := cut_unique_cons (fun c => (Kind.ofChar c).isParen) rfl (hparen hl.parens₃)
    (hparen hl'.parens₃) h5
  obtain ⟨h7, rfl⟩ := cut_unique_cons (· != '\x7d') rfl (hout hl.outputs) (hout hl'.outputs) h6
  have hi : i = i' := Listing.eq_of_chars (fun _ hw => ⟨hw.1.ne_nil, hw.1.not_blank⟩)
    (fun _ _ _ _ e => e)
    (fun p hp => NameList.not_mem_item hp.optional (by decide) (by decide) (by decide))
    hl.inputs hl'.inputs h2
  have ho : o = o' := Listing.eq_of_chars (fun _ hp => ⟨Path.ne_nil hp, Path.not_blank hp⟩)
    Path.eq_of_chars
    (fun p hp => not_mem_path hp (by decide) (by decide) (by decide)) hl.outputs hl'.outputs h7
  rw [hi, ho]

end Layout

end LabelFlow
