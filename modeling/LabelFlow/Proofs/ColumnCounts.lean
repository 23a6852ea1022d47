import Mathlib.Data.List.Count
import LabelFlow.Proofs.Columns
import LabelFlow.Proofs.GuardedReport

/-!
# What a column counts

The column of an offset is the number of characters whose encoding ends at or before it
(`Text.column_eq_endsBy`): where the encoding of a character ends is told by the UTF-8 form of the
line up to and with the character. So a column grows with the offset and never exceeds the number of
characters, whether or not the offset is one between characters. `columns_exact` adds that going
back to a bound of a character comes to the same, and that the columns of a token are those of its
text.
-/

set_option autoImplicit false

namespace LabelFlow

namespace Text

/-- The width of a text is the size of its UTF-8 form. -/
theorem width_eq_utf8ByteSize (cs : List Char) : width cs = (String.ofList cs).utf8ByteSize := by
  induction cs with
  | nil => simp
  | cons c cs ih =>
    rw [width_cons, ih, String.ofList_cons, String.utf8ByteSize_append,
      String.utf8ByteSize_singleton]

/-- The number of characters of a line that are encoded by the bytes before an offset, each of them
ending where the line up to it does. -/
def endsBy (line : String) (offset : Nat) : Nat :=
  (List.range line.length).countP fun i =>
    decide ((String.ofList (line.toList.take (i + 1))).utf8ByteSize ≤ offset)

theorem column_eq_countP (cs : List Char) (offset : Nat) :
    column cs offset =
      (List.range cs.length).countP fun i => decide (width (cs.take (i + 1)) ≤ offset) := by
  induction cs generalizing offset with
  | nil => rfl
  | cons c cs ih =>
    rw [List.length_cons, List.range_succ_eq_map, List.countP_cons, List.countP_map, column]
    by_cases h : c.utf8Size ≤ offset
    · have hrest (n : Nat) : c.utf8Size + n ≤ offset ↔ n ≤ offset - c.utf8Size := by omega
      simp [h, ih, hrest, Function.comp_def]
    · -- the first character is not encoded, and so no other is
      have hrest (n : Nat) : ¬ c.utf8Size + n ≤ offset := by omega
      simp [h, hrest, Function.comp_def]

/-- The column of an offset is the number of characters that end at or before it. -/
theorem column_eq_endsBy (line : String) (offset : Nat) :
    column line.toList offset = endsBy line offset := by
  simp only [column_eq_countP, endsBy, width_eq_utf8ByteSize, String.length_toList]

theorem column_mono (cs : List Char) {m n : Nat} (h : m ≤ n) : column cs m ≤ column cs n := by
  rw [column_eq_countP, column_eq_countP]
  refine List.countP_mono_left fun i _ hi => ?_
  simp only [decide_eq_true_eq] at hi ⊢
  exact Nat.le_trans hi h

theorem column_le_length (cs : List Char) (offset : Nat) : column cs offset ≤ cs.length := by
  rw [column_eq_countP]
  simpa using List.countP_le_length (l := List.range cs.length)

end Text

/-- The columns of a token cut its text out of the line. -/
theorem Token.slice_columns {line : String} {t : Token} (h : t ∈ ofLine line) :
    (t.span.columns line).1 < (t.span.columns line).2 ∧
      Text.slice line (t.span.columns line).1 (t.span.columns line).2 = t.text := by
  have hcover : t.span.Covers line.toList t.text.toList := by
    simpa using covers_of_mem_ofText (a := []) (b := []) h
  have hne : t.text.toList ≠ [] := mt String.toList_eq_nil_iff.1 (text_ne_of_mem h)
  obtain ⟨hlt, -, hslice⟩ := hcover.slice_columns hne
  exact ⟨hlt, hslice⟩

/-- Both columns of a span count the characters that end at or before its bounds, whatever the
bounds are: in order or not, within the line or not, between characters or not. Going back from an
offset to a bound of a character never fails and gives the same column. Columns grow with offsets up
to the length of the line, and those of a token cut out its text. -/
theorem columns_exact (line : String) :
    (∀ s : Span, s.columns line = (Text.endsBy line s.start, Text.endsBy line s.stop)) ∧
    (∀ offset, Guarded.column line.toList offset = .ok (Text.column line.toList offset)) ∧
    (∀ m n, m ≤ n → Text.column line.toList m ≤ Text.column line.toList n) ∧
    (∀ offset, Text.column line.toList offset ≤ line.length) ∧
    ∀ t ∈ Token.ofLine line, (t.span.columns line).1 < (t.span.columns line).2 ∧
      Text.slice line (t.span.columns line).1 (t.span.columns line).2 = t.text := by
  refine ⟨fun s => ?_, Guarded.column_eq line.toList, fun m n => Text.column_mono line.toList,
    fun offset => ?_, fun t => Token.slice_columns⟩
  · rw [Span.columns, Text.column_eq_endsBy, Text.column_eq_endsBy]
  · rw [← String.length_toList]
    exact Text.column_le_length line.toList offset

/-- A word behind characters of two and four bytes, and an inverted span that ends in the first of
them and begins in the other. -/
theorem columns_exact_wide :
    (⟨.word, "b", 7⟩ : Token) ∈ Token.ofLine "ä|𝄞b" ∧
    Text.slice "ä|𝄞b" ((⟨7, 8⟩ : Span).columns "ä|𝄞b").1 ((⟨7, 8⟩ : Span).columns "ä|𝄞b").2 = "b" ∧
    (⟨6, 1⟩ : Span).columns "ä|𝄞b" = (2, 0) ∧
    Text.endsBy "ä|𝄞b" 6 = 2 ∧ Text.endsBy "ä|𝄞b" 1 = 0 := by
  obtain ⟨hcolumns, -, -, -, htokens⟩ := columns_exact "ä|𝄞b"
  have hmem : (⟨.word, "b", 7⟩ : Token) ∈ Token.ofLine "ä|𝄞b" := by decide
  have hspan : (⟨6, 1⟩ : Span).columns "ä|𝄞b" = (2, 0) := by decide
  have hcount := (hcolumns ⟨6, 1⟩).symm.trans hspan
  exact ⟨hmem, (htokens _ hmem).2, hspan, congrArg Prod.fst hcount, congrArg Prod.snd hcount⟩

end LabelFlow
