import LabelFlow.Proofs.Reading

/-!
# Operations that may fail

An operation may be misused: bounds of a span in the wrong order, a slice that leaves its text or
cuts through a character, an index that is too large (`Misuse`). Such an operation is an error where
it is misused, and what is made of such operations fails where one of them does. Here are the
operations, when they succeed, and the first thing made of them: `Guarded.lex` cuts a line into
tokens from left to right, each a slice of the line, and never fails (`Guarded.lex_line`).
-/

set_option autoImplicit false

namespace LabelFlow

/-- How an operation is misused. -/
inductive Misuse
  /-- Bounds of a span that end before they start. -/
  | inverted (bounds : Span.Inverted)
  /-- Bounds of a slice of a text that are not bounds of characters of the text, in order. -/
  | slice (start stop : Nat)
  /-- An index that is not one of a token. -/
  | index (i : Nat)
  /-- Bounds of a slice of tokens that do not lie among the tokens, in order. -/
  | range (start stop : Nat)
  /-- The first one of no tokens. -/
  | noFirst
  /-- Zero less one. -/
  | belowZero
deriving DecidableEq, Repr

namespace Guarded

open Text

/-! ## Operations -/

/-- The characters before a byte offset and those behind it, if it is one between characters. -/
def cutAt? : List Char → Nat → Option (List Char × List Char)
  | cs, 0 => some ([], cs)
  | [], _ + 1 => none
  | c :: cs, n + 1 =>
    if c.utf8Size ≤ n + 1 then
      (cutAt? cs (n + 1 - c.utf8Size)).map fun (a, b) => (c :: a, b)
    else none

/-- The characters between two byte offsets. -/
def slice (cs : List Char) (start stop : Nat) : Except Misuse (List Char) :=
  if start ≤ stop then
    match cutAt? cs stop with
    | some (front, _) =>
      match cutAt? front start with
      | some (_, mid) => .ok mid
      | none => .error (.slice start stop)
    | none => .error (.slice start stop)
  else .error (.slice start stop)

/-- The span with the given bounds. -/
def span (start stop : Nat) : Except Misuse Span := (Span.ofBounds start stop).mapError .inverted

/-- The token with an index. -/
def token (ts : List Token) (i : Nat) : Except Misuse Token :=
  match ts[i]? with
  | some t => .ok t
  | none => .error (.index i)

/-- The tokens between two indices. -/
def range (ts : List Token) (start stop : Nat) : Except Misuse (List Token) :=
  if start ≤ stop ∧ stop ≤ ts.length then .ok ((ts.drop start).take (stop - start))
  else .error (.range start stop)

/-- The first token. -/
def first : List Token → Except Misuse Token
  | [] => .error .noFirst
  | t :: _ => .ok t

/-- One less. -/
def pred : Nat → Except Misuse Nat
  | 0 => .error .belowZero
  | n + 1 => .ok n

/-- How many elements there are before the first one without a property. -/
def countFront {α : Type} (p : α → Bool) (xs : List α) : Nat := (xs.takeWhile p).length

theorem countFront_append {α : Type} {p : α → Bool} {a b : List α} (ha : ∀ x ∈ a, p x = true)
    (hb : ∀ x ∈ b.head?, p x = false) : countFront p (a ++ b) = a.length := by
  rw [countFront, takeWhile_append_stop ha hb]

/-! ## When they succeed -/

theorem cutAt?_append (a b : List Char) : cutAt? (a ++ b) (width a) = some (a, b) := by
  induction a with
  | nil => cases b <;> rfl
  | cons c a ih =>
    have hpos := c.utf8Size_pos
    obtain ⟨n, hn⟩ : ∃ n, width (c :: a) = n + 1 := ⟨width (c :: a) - 1, by
      rw [width_cons]
      omega⟩
    have hle : c.utf8Size ≤ n + 1 := by
      rw [← hn, width_cons]
      omega
    have hrest : n + 1 - c.utf8Size = width a := by
      rw [← hn, width_cons]
      omega
    rw [hn, List.cons_append, cutAt?, if_pos hle, hrest, ih]
    rfl

/-- A slice between bounds of characters is what stands there. -/
theorem slice_append (a b c : List Char) :
    slice (a ++ (b ++ c)) (width a) (width a + width b) = .ok b := by
  have hstop : cutAt? (a ++ (b ++ c)) (width a + width b) = some (a ++ b, c) := by
    rw [← List.append_assoc, ← width_append]
    exact cutAt?_append (a ++ b) c
  rw [slice, if_pos (Nat.le_add_right ..), hstop]
  simp only [cutAt?_append]

theorem span_eq {start stop : Nat} (h : start ≤ stop) : span start stop = .ok ⟨start, stop⟩ := by
  rw [span, Span.ofBounds_eq_ok_iff.2 ⟨h, rfl⟩]
  rfl

theorem token_eq {ts : List Token} {i : Nat} {t : Token} (h : ts[i]? = some t) :
    token ts i = .ok t := by
  rw [token, h]

theorem range_eq {ts : List Token} {start stop : Nat} (hle : start ≤ stop)
    (hstop : stop ≤ ts.length) : range ts start stop = .ok ((ts.drop start).take (stop - start)) :=
  if_pos ⟨hle, hstop⟩

/-- Results that are all there are there together. -/
theorem mapM_ok {α β : Type} {f : α → Except Misuse β} {g : α → β} {xs : List α}
    (h : ∀ x ∈ xs, f x = .ok (g x)) : xs.mapM f = .ok (xs.map g) := by
  induction xs with
  | nil => rfl
  | cons x xs ih =>
    obtain ⟨hx, hxs⟩ := List.forall_mem_cons.1 h
    rw [List.mapM_cons, hx, ih hxs]
    rfl

/-! ## Cutting a line into tokens -/

/-- The characters that go on with the token that a character begins. -/
def runAfter (c : Char) (cs : List Char) : List Char :=
  if (Kind.ofChar c).isRun then cs.takeWhile (Kind.ofChar · == Kind.ofChar c) else []

/-- The tokens of the rest of a line, which begins at an offset. Each is a slice of the line up to
where the next one begins. -/
def lex (line : List Char) (start : Nat) : List Char → Except Misuse (List Token)
  | [] => .ok []
  | c :: cs => do
    let more := runAfter c cs
    let stop := start + width (c :: more)
    let text ← slice line start stop
    let _ ← span start stop
    let tokens ← lex line stop (cs.drop more.length)
    .ok (⟨Kind.ofChar c, .ofList text, start⟩ :: tokens)
termination_by cs => cs.length
decreasing_by
  simp only [List.length_drop, List.length_cons]
  omega

/-- A character begins a token, which goes on as long as its run does. -/
theorem ofText_runAfter (start : Nat) (c : Char) (cs : List Char) :
    cs = runAfter c cs ++ cs.drop (runAfter c cs).length ∧ Token.ofText start (c :: cs) =
      ⟨Kind.ofChar c, .ofList (c :: runAfter c cs), start⟩ ::
        Token.ofText (start + width (c :: runAfter c cs)) (cs.drop (runAfter c cs).length) := by
  unfold runAfter
  by_cases hrun : (Kind.ofChar c).isRun = true
  · rw [if_pos hrun]
    obtain ⟨a, b, rfl, ha, hb⟩ := exists_class_front (Kind.ofChar · == Kind.ofChar c) cs
    rw [takeWhile_append_stop ha hb, List.drop_left]
    have hkind : ∀ d ∈ c :: a, Kind.ofChar d = Kind.ofChar c :=
      List.forall_mem_cons.2 ⟨rfl, fun d hd => beq_iff_eq.1 (ha d hd)⟩
    have hap : Apart (c :: a) b := .of_class (p := (· == Kind.ofChar c))
      (fun d hd => beq_iff_eq.2 (hkind d hd)) hb
    exact ⟨rfl, Token.ofText_run (List.cons_ne_nil c a) hkind hrun hap start⟩
  · rw [if_neg hrun]
    have hap : Apart [c] cs := .of_last (a := []) (Bool.eq_false_iff.2 hrun)
    exact ⟨rfl, Token.ofText_append start hap⟩

/-- The rest of a line is cut into its tokens, and nothing fails. -/
theorem lex_eq (before cs : List Char) :
    lex (before ++ cs) (width before) cs = .ok (Token.ofText (width before) cs) := by
  induction hn : cs.length using Nat.strongRecOn generalizing before cs with
  | ind n ih =>
  cases cs with
  | nil => rw [lex, Token.ofText_nil]
  | cons c cs =>
    obtain ⟨hcs, htokens⟩ := ofText_runAfter (width before) c cs
    rw [lex, htokens]
    generalize runAfter c cs = more at hcs ⊢
    generalize cs.drop more.length = rest at hcs ⊢
    subst hcs
    have hshorter : rest.length < n := by
      rw [← hn, List.length_cons, List.length_append]
      omega
    have hline : before ++ c :: (more ++ rest) = (before ++ c :: more) ++ rest := by simp
    have hrest := ih _ hshorter (before ++ c :: more) rest rfl
    rw [← hline, width_append] at hrest
    have hslice : slice (before ++ c :: (more ++ rest)) (width before)
        (width before + width (c :: more)) = .ok (c :: more) :=
      slice_append before (c :: more) rest
    simp only [hslice, span_eq (Nat.le_add_right ..), hrest, bind, Except.bind]

/-- Every line is cut into its tokens. -/
theorem lex_line (line : String) : lex line.toList 0 line.toList = .ok (Token.ofLine line) :=
  lex_eq [] line.toList

end Guarded

end LabelFlow
