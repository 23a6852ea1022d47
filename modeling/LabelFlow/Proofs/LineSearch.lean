import LabelFlow.Proofs.Distinctness

/-!
# Searching a whole line

What a search in a line finds is told by characters alone (`line_search_exact`): the offsets, in
ascending order, at which the name stands with what its surrounding asks for on both sides
(`Surrounding.Admits`). A name with a character outside the alphabet of its surrounding, or without
characters, is never found.
-/

set_option autoImplicit false

namespace LabelFlow

open Text

namespace Surrounding

/-- The characters that names are written with. -/
def isNameChar : Surrounding → Char → Bool
  | .identifier => isNamePart
  | .beforeDot | .afterDot => isWord

/-- What an occurrence needs in front of it and behind it. -/
def Admits : Surrounding → List Char → List Char → Prop
  | .identifier, before, after =>
    (∀ c ∈ before.getLast?, isNamePart c = false) ∧ ∀ c ∈ after.head?, isNamePart c = false
  | .beforeDot, before, after =>
    (∀ c ∈ before.getLast?, isWord c = false) ∧ after.head? = some '.'
  | .afterDot, before, after =>
    before.getLast? = some '.' ∧ ∀ c ∈ after.head?, isWord c = false

/-- A name that can be found: it has characters, and only those of its alphabet. -/
def Spells (surrounding : Surrounding) (name : String) : Prop :=
  name ≠ "" ∧ ∀ c ∈ name.toList, surrounding.isNameChar c = true

/-- A name stands in a text behind the characters `before`. -/
def StandsAfter (surrounding : Surrounding) (name : String) (text before : List Char) : Prop :=
  ∃ after, text = before ++ name.toList ++ after ∧ surrounding.Admits before after

end Surrounding

namespace Token

variable {line name : String} {surrounding : Surrounding} {o : Nat}

/-- A search finds a name where it stands, if the name is one that can be found. -/
theorem mem_startsOf_iff : o ∈ startsOf (ofLine line) name surrounding ↔
    surrounding.Spells name ∧
      ∃ before, surrounding.StandsAfter name line.toList before ∧ o = width before := by
  have hne : name ≠ "" ↔ name.toList ≠ [] := not_congr String.toList_eq_nil_iff.symm
  simp only [ofLine_eq, Surrounding.Spells, Surrounding.StandsAfter, hne, List.append_assoc]
  cases surrounding with
  | identifier =>
    rw [mem_startsOf_identifier]
    constructor
    · rintro ⟨hname, a, b, hline, hchars, ha, hb, rfl⟩
      exact ⟨⟨hname, hchars⟩, a, ⟨b, hline, ha, hb⟩, Nat.zero_add _⟩
    · rintro ⟨⟨hname, hchars⟩, a, ⟨b, hline, ha, hb⟩, rfl⟩
      exact ⟨hname, a, b, hline, hchars, ha, hb, (Nat.zero_add _).symm⟩
  | beforeDot =>
    rw [mem_startsOf_beforeDot]
    constructor
    · rintro ⟨hname, a, b, hline, ha, rfl⟩
      exact ⟨hname, a, ⟨'.' :: b, hline, ha, rfl⟩, Nat.zero_add _⟩
    · rintro ⟨hname, a, ⟨b, hline, ha, hb⟩, rfl⟩
      obtain ⟨b, rfl⟩ := List.head?_eq_some_iff.1 hb
      exact ⟨hname, a, b, hline, ha, (Nat.zero_add _).symm⟩
  | afterDot =>
    rw [mem_startsOf_afterDot]
    have hdot : ∀ a : List Char, width (a ++ ['.']) = width a + 1 := fun a => width_append ..
    constructor
    · rintro ⟨hname, a, b, hline, hb, rfl⟩
      refine ⟨hname, a ++ ['.'], ⟨b, ?_, ?_, hb⟩, ?_⟩
      · simpa using hline
      · simp
      · rw [hdot, Nat.zero_add]
    · rintro ⟨hname, a, ⟨b, hline, ha, hb⟩, rfl⟩
      obtain ⟨a, rfl⟩ := List.getLast?_eq_some_iff.1 ha
      refine ⟨hname, a, b, ?_, hb, ?_⟩
      · simpa using hline
      · rw [hdot, Nat.zero_add]

theorem startsOf_line_ascending (line name : String) (surrounding : Surrounding) :
    (startsOf (ofLine line) name surrounding).Pairwise (· < ·) := by
  have hstarts := starts_ofText 0 line.toList
  rw [← ofLine_eq] at hstarts
  exact hstarts.sublist (startsOf_sublist _ _ _)

end Token

/-- The search for a name in a line is exact. A name that is written with the characters of its
surrounding is found, in ascending order, at exactly the byte offsets at which it stands in the
line: as a whole identifier with no character of names on either side, as a word with no word
character before it and a dot right after it, or as a word right after a dot with no word character
after it. The empty name, and one with any other character, is found nowhere. -/
theorem line_search_exact (line name : String) (surrounding : Surrounding) :
    (surrounding.Spells name →
      (Token.startsOf (Token.ofLine line) name surrounding).Pairwise (· < ·) ∧
      ∀ p, p ∈ Token.startsOf (Token.ofLine line) name surrounding ↔
        ∃ before, surrounding.StandsAfter name line.toList before ∧ p = width before) ∧
    (name = "" ∨ (∃ c ∈ name.toList, surrounding.isNameChar c = false) →
      Token.startsOf (Token.ofLine line) name surrounding = []) := by
  refine ⟨fun hname => ⟨Token.startsOf_line_ascending line name surrounding, fun p => ?_⟩,
    fun hname => ?_⟩
  · rw [Token.mem_startsOf_iff]
    exact and_iff_right hname
  · rw [List.eq_nil_iff_forall_not_mem]
    intro p hp
    obtain ⟨hne, hchars⟩ := (Token.mem_startsOf_iff.1 hp).1
    rcases hname with rfl | ⟨c, hc, hother⟩
    · exact hne rfl
    · rw [hchars c hc] at hother
      cases hother

/-- A name of two bytes into the line, beside a longer name, and a name with a blank. -/
theorem line_search_exact_bounded :
    (Surrounding.identifier.Spells "in" ∧
      8 ∈ Token.startsOf (Token.ofLine "ä in|x;in") "in" .identifier ∧
      3 ∉ Token.startsOf (Token.ofLine "ä in|x;in") "in" .identifier) ∧
    (∃ c ∈ "a b".toList, Surrounding.identifier.isNameChar c = false) ∧
      Token.startsOf (Token.ofLine "a b") "a b" .identifier = [] := by
  have hname : Surrounding.identifier.Spells "in" :=
    ⟨by decide, List.all_eq_true.1 (by decide)⟩
  have hblank : ∃ c ∈ "a b".toList, Surrounding.identifier.isNameChar c = false :=
    ⟨' ', by decide, by decide⟩
  obtain ⟨-, hmem⟩ := (line_search_exact "ä in|x;in" "in" .identifier).1 hname
  refine ⟨⟨hname, (hmem 8).2 ?_, ?_⟩, hblank,
    (line_search_exact "a b" "a b" .identifier).2 (.inr hblank)⟩
  · have hlast : "ä in|x;".toList.getLast? = some ';' := by decide
    refine ⟨"ä in|x;".toList, ⟨[], by decide, ?_, nofun⟩, by decide⟩
    rw [hlast]
    rintro c ⟨⟩
    decide
  · decide

end LabelFlow
