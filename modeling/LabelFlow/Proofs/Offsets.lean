import LabelFlow.Span

/-!
# Offsets and columns

A stretch of a text is bounded by byte offsets (`Span.Covers`). Its columns count the characters
before its bounds (`Text.column_append`), so the columns of a span cut out the text that stands at
it (`Span.Covers.columns_cut`). The parts of a list stand behind separators at the offsets that
`Text.placed` gives.
-/

set_option autoImplicit false

namespace LabelFlow

namespace Text

theorem width_pos {cs : List Char} (h : cs ≠ []) : 0 < width cs := by
  cases cs with
  | nil => exact absurd rfl h
  | cons c cs =>
    have := c.utf8Size_pos
    rw [width_cons]
    omega

theorem column_append (a b : List Char) : column (a ++ b) (width a) = a.length := by
  induction a with
  | nil =>
    cases b with
    | nil => rfl
    | cons c b =>
      have := c.utf8Size_pos
      exact if_neg (by simp only [width_nil]; omega)
  | cons c a ih =>
    rw [List.cons_append, column, width_cons, if_pos (Nat.le_add_right ..), Nat.add_sub_cancel_left,
      ih, List.length_cons]

/-- Stretches with a separator of one byte before each, and the offsets of the separators, the first
of which is `offset`. -/
def placed {α : Type} (chars : α → List Char) (offset : Nat) : List α → List (Nat × α)
  | [] => []
  | x :: xs => (offset, x) :: placed chars (offset + 1 + width (chars x)) xs

section
variable {α : Type} {chars : α → List Char}

@[simp] theorem placed_nil (offset : Nat) : placed chars offset [] = [] := rfl

@[simp] theorem placed_cons (offset : Nat) (x : α) (xs : List α) :
    placed chars offset (x :: xs) =
      (offset, x) :: placed chars (offset + 1 + width (chars x)) xs := rfl

@[simp] theorem placed_map_snd (chars : α → List Char) (offset : Nat) (xs : List α) :
    (placed chars offset xs).map Prod.snd = xs := by
  induction xs generalizing offset with
  | nil => rfl
  | cons x xs ih => simp [ih]

theorem head?_flatMap_cons {sep c : Char} {xs : List α}
    (h : c ∈ (xs.flatMap fun x => sep :: chars x).head?) : c = sep := by
  cases xs with
  | nil => cases h
  | cons x xs => exact (Option.some.inj h).symm

/-- A placed stretch stands behind its separator in the list, and in front of the next one. -/
theorem exists_of_mem_placed {sep : Char} (hsep : sep.utf8Size = 1) {offset : Nat} {xs : List α}
    {e : Nat × α} (h : e ∈ placed chars offset xs) : e.2 ∈ xs ∧ ∃ a b,
      xs.flatMap (fun x => sep :: chars x) = a ++ sep :: (chars e.2 ++ b) ∧
        (∀ c ∈ b.head?, c = sep) ∧ e.1 = offset + width a := by
  induction xs generalizing offset with
  | nil => cases h
  | cons x xs ih =>
    rcases List.mem_cons.1 h with rfl | h
    · exact ⟨List.mem_cons_self, [], xs.flatMap fun x => sep :: chars x, rfl,
        fun _ => head?_flatMap_cons, rfl⟩
    · obtain ⟨hm, a, b, hab, hb, he⟩ := ih h
      refine ⟨List.mem_cons_of_mem _ hm, sep :: (chars x ++ a), b, ?_, hb, ?_⟩
      · rw [List.flatMap_cons, hab]
        simp
      · rw [he, width_cons, width_append, hsep]
        omega

end

end Text

namespace Span

/-- The text stands at the span in the line: the span begins after the characters before it. -/
def Covers (s : Span) (line text : List Char) : Prop :=
  ∃ before after, line = before ++ text ++ after ∧
    s = ⟨Text.width before, Text.width before + Text.width text⟩

namespace Covers

variable {s : Span} {text : List Char}

/-- The columns of a span lie in the line, and cut out the text that stands at it. -/
theorem columns_cut {line : String} (h : s.Covers line.toList text) :
    (s.columns line).2 = (s.columns line).1 + text.length ∧ (s.columns line).2 ≤ line.length ∧
      (line.toList.drop (s.columns line).1).take text.length = text := by
  obtain ⟨before, after, hl, rfl⟩ := h
  have h1 : Text.column line.toList (Text.width before) = before.length := by
    rw [hl, List.append_assoc, Text.column_append]
  have h2 : Text.column line.toList (Text.width before + Text.width text) =
      before.length + text.length := by
    rw [hl, ← Text.width_append, Text.column_append, List.length_append]
  refine ⟨by simp only [columns, h1, h2], ?_, ?_⟩
  · rw [columns, h2, ← String.length_toList, hl]
    simp
  · rw [columns, h1, hl]
    simp

end Covers

end Span

end LabelFlow
