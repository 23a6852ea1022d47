import LabelFlow.Proofs.GuardedSearch

/-!
# Selecting tokens by two searches

The tokens inside a span are those that begin no earlier than the span and end no later, in order
(`region_tokens_exact`). They are found by two searches for where a property ends, each of which
promises nothing about a list in which the property comes back (`Partitioned`, `Guarded.FindsEnd`).
Tokens in order begin and end in order, so both searches are put to what they promise; where the
first one ends behind the second, because the span is inverted or lies within a token, no token is
selected. `Guarded.bisect` is a search of this kind: it halves the stretch in which the end must be.
-/

set_option autoImplicit false

namespace LabelFlow

/-! ## Lists in two parts -/

/-- The elements with a property stand in front of those without it. -/
def Partitioned {α : Type} (p : α → Bool) (xs : List α) : Prop :=
  xs.Pairwise fun x y => p y = true → p x = true

namespace Partitioned

variable {α : Type} {p : α → Bool} {xs : List α} {x : α}

/-- From an element without the property on there is none with it. -/
theorem forall_of_neg (h : Partitioned p (x :: xs)) (hx : p x = false) :
    ∀ y ∈ x :: xs, p y = false := by
  intro y hy
  rcases List.mem_cons.1 hy with rfl | hy
  · exact hx
  · apply Bool.eq_false_iff.2
    intro hpy
    rw [(List.pairwise_cons.1 h).1 y hy hpy] at hx
    cases hx

theorem takeWhile_eq (h : Partitioned p xs) : xs.takeWhile p = xs.filter p := by
  induction xs with
  | nil => rfl
  | cons x xs ih =>
    cases hx : p x with
    | true =>
      rw [List.takeWhile_cons_of_pos hx, List.filter_cons_of_pos hx, ih (List.pairwise_cons.1 h).2]
    | false =>
      rw [List.takeWhile_cons_of_neg (by simp [hx]), eq_comm, List.filter_eq_nil_iff]
      intro y hy
      simp [h.forall_of_neg hx y hy]

theorem dropWhile_eq (h : Partitioned p xs) : xs.dropWhile p = xs.filter (!p ·) := by
  induction xs with
  | nil => rfl
  | cons x xs ih =>
    cases hx : p x with
    | true =>
      rw [List.dropWhile_cons_of_pos hx, List.filter_cons_of_neg (by simp [hx]),
        ih (List.pairwise_cons.1 h).2]
    | false =>
      rw [List.dropWhile_cons_of_neg (by simp [hx]), eq_comm, List.filter_eq_self]
      intro y hy
      simp [h.forall_of_neg hx y hy]

/-- An element has the property exactly if it is one of the first ones, as many as have it. -/
theorem iff_lt_countP (h : Partitioned p xs) {i : Nat} (hi : xs[i]? = some x) :
    p x = true ↔ i < xs.countP p := by
  induction xs generalizing i with
  | nil => simp at hi
  | cons y xs ih =>
    cases hy : p y with
    | true =>
      rw [List.countP_cons_of_pos hy]
      cases i with
      | zero =>
        obtain rfl : y = x := by simpa using hi
        simp [hy]
      | succ i =>
        rw [ih (List.pairwise_cons.1 h).2 (by simpa using hi)]
        omega
    | false =>
      have hnone := h.forall_of_neg hy
      have hzero : (y :: xs).countP p = 0 := by
        rw [List.countP_eq_zero]
        intro z hz
        simp [hnone z hz]
      rw [hzero, hnone x (List.mem_of_getElem? hi)]
      simp

end Partitioned

/-! ## Searches -/

namespace Guarded

/-- A search for where a property ends. If the elements with it stand in front, it finds how many
there are; of other lists it promises nothing. -/
def FindsEnd {α : Type} (search : (α → Bool) → List α → Nat) : Prop :=
  ∀ p xs, Partitioned p xs → search p xs = xs.countP p

theorem findsEnd_countFront {α : Type} : FindsEnd (countFront (α := α)) := by
  intro p xs h
  rw [countFront, h.takeWhile_eq, List.countP_eq_length_filter]

/-- Looks for the end of a property between two indices, at the middle first. -/
def bisectBetween {α : Type} (p : α → Bool) (xs : List α) (low high : Nat) : Nat :=
  if low < high then
    match xs[low + (high - low) / 2]? with
    | some x =>
      if p x then bisectBetween p xs (low + (high - low) / 2 + 1) high
      else bisectBetween p xs low (low + (high - low) / 2)
    | none => low
  else low
termination_by high - low

/-- Looks for the end of a property by halving. -/
def bisect {α : Type} (p : α → Bool) (xs : List α) : Nat := bisectBetween p xs 0 xs.length

/-- The end that is looked for stays between the two indices. -/
theorem bisectBetween_eq {α : Type} {p : α → Bool} {xs : List α} (h : Partitioned p xs)
    {low high : Nat} (hlow : low ≤ xs.countP p) (hhigh : xs.countP p ≤ high)
    (hlength : high ≤ xs.length) : bisectBetween p xs low high = xs.countP p := by
  fun_induction bisectBetween p xs low high with
  | case1 low high hlt x hx hp ih =>
    have := (h.iff_lt_countP hx).1 hp
    exact ih (by omega) hhigh hlength
  | case2 low high hlt x hx hp ih =>
    have := mt (h.iff_lt_countP hx).2 hp
    exact ih hlow (by omega) (by omega)
  | case3 low high hlt hnone =>
    have := List.getElem?_eq_none_iff.1 hnone
    omega
  | case4 low high hge => omega

theorem findsEnd_bisect {α : Type} : FindsEnd (bisect (α := α)) := fun _ _ h =>
  bisectBetween_eq h (Nat.zero_le _) List.countP_le_length (Nat.le_refl _)

/-- The tokens from where a search finds the first one that does not begin before a span up to where
it finds the first one that does not end in it. -/
def insideBy (search : (Token → Bool) → List Token → Nat) (ts : List Token) (s : Span) :
    Except Misuse (List Token) :=
  let start := search (fun t => decide (t.start < s.start)) ts
  range ts start (max (search (fun t => decide (t.stop ≤ s.stop)) ts) start)

end Guarded

/-! ## Tokens inside a span -/

namespace Token.InOrder

variable {ts : List Token}

theorem partitioned_start (h : InOrder ts) (n : Nat) :
    Partitioned (fun t => decide (t.start < n)) ts := by
  refine List.Pairwise.imp (fun {t u} htu hu => ?_) h
  have := start_le_stop t
  simp only [decide_eq_true_eq] at hu ⊢
  omega

theorem partitioned_stop (h : InOrder ts) (n : Nat) :
    Partitioned (fun t => decide (t.stop ≤ n)) ts := by
  refine List.Pairwise.imp (fun {t u} htu hu => ?_) h
  have := start_le_stop u
  simp only [decide_eq_true_eq] at hu ⊢
  omega

/-- The tokens inside a span, told one by one. -/
theorem inside_eq_filter (h : InOrder ts) (s : Span) :
    inside ts s = ts.filter fun t => decide (s.start ≤ t.start ∧ t.stop ≤ s.stop) := by
  have hrest : InOrder (ts.dropWhile fun t => decide (t.start < s.start)) :=
    h.sublist (List.dropWhile_sublist _)
  unfold inside
  rw [(hrest.partitioned_stop s.stop).takeWhile_eq, (h.partitioned_start s.start).dropWhile_eq,
    List.filter_filter]
  refine List.filter_congr fun t _ => ?_
  rw [Bool.eq_iff_iff]
  simp only [Bool.and_eq_true, Bool.not_eq_true', decide_eq_true_eq, decide_eq_false_iff_not]
  omega

/-- Every search finds them. -/
theorem insideBy_eq (h : InOrder ts) {search : (Token → Bool) → List Token → Nat}
    (hsearch : Guarded.FindsEnd search) (s : Span) :
    Guarded.insideBy search ts s = .ok (inside ts s) := by
  have hstart := h.partitioned_start s.start
  have hstop := h.partitioned_stop s.stop
  rw [← Guarded.inside_eq h, Guarded.insideBy, Guarded.inside, hsearch _ _ hstart,
    hsearch _ _ hstop, Guarded.findsEnd_countFront _ _ hstart,
    Guarded.findsEnd_countFront _ _ hstop]

end Token.InOrder

/-- The tokens of a line inside a span are those that begin no earlier than it does and end no
later, in order, whatever the span is: in order or inverted, within the line or not, cutting tokens
or not. Two searches for where a property ends, one by where tokens begin and one by where they end,
select the same tokens, and the bounds they find are those of a slice. -/
theorem region_tokens_exact (line : String) (s : Span) :
    Token.inside (Token.ofLine line) s =
      (Token.ofLine line).filter (fun t => decide (s.start ≤ t.start ∧ t.stop ≤ s.stop)) ∧
    ∀ search : (Token → Bool) → List Token → Nat, Guarded.FindsEnd search →
      Guarded.insideBy search (Token.ofLine line) s = .ok (Token.inside (Token.ofLine line) s) := by
  have horder := Token.inOrder_ofText 0 line.toList
  exact ⟨horder.inside_eq_filter s, fun search hsearch => horder.insideBy_eq hsearch s⟩

/-- A span that cuts a word, and an inverted one for which the searches cross, by halving. -/
theorem region_tokens_exact_bisected : Guarded.FindsEnd (Guarded.bisect (α := Token)) ∧
    Guarded.insideBy Guarded.bisect (Token.ofLine "ab.ä|x") ⟨1, 6⟩ =
      .ok [⟨.dot, ".", 2⟩, ⟨.other, "ä", 3⟩, ⟨.pipe, "|", 5⟩] ∧
    Guarded.insideBy Guarded.bisect (Token.ofLine "ab.ä|x") ⟨5, 2⟩ = .ok [] := by
  have hcut := (region_tokens_exact "ab.ä|x" ⟨1, 6⟩).2 _ Guarded.findsEnd_bisect
  have hinverted := (region_tokens_exact "ab.ä|x" ⟨5, 2⟩).2 _ Guarded.findsEnd_bisect
  exact ⟨Guarded.findsEnd_bisect, hcut.trans (by decide), hinverted.trans (by decide)⟩

end LabelFlow
