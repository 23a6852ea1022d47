import LabelFlow.Proofs.NameList

/-!
# Reading Forwarding statements

`Forwarding.parse?_eq_some_iff`: a line is read as a Forwarding statement exactly if it is the
layout of one, and the statement read has the names of the layout at their places.
-/

set_option autoImplicit false

namespace LabelFlow

open Layout

theorem Layout.forwarding_eq (first : Item) (more : List Item) :
    forwarding first more = forwardingKeyword.toList ++
      '(' :: '\x7b' :: ((first.chars id ++ trailing id more) ++ '\x7d' :: [')']) :=
  congrArg ("Forwarding(\x7b".toList ++ ·) (List.append_assoc (first.chars id) _ _).symm

theorem Layout.standsIn_forwarding (first : Item) (more : List Item) :
    (nameList 12 first more).StandsIn (forwarding first more) :=
  NameList.standsIn_nameList "Forwarding(\x7b".toList "\x7d)".toList first more

namespace Forwarding

theorem parse?_eq_some_iff {minLength : Nat} {line : String} {f : Forwarding} :
    parse? minLength line = some f ↔ ∃ first more,
      (∀ p ∈ first :: more, p.Valid (OptionalName minLength)) ∧
        line.toList = forwarding first more ∧ f = ⟨nameList 12 first more⟩ := by
  have hopen : Kind.openParen.char? = some '(' := rfl
  have hclose : Kind.closeParen.char? = some ')' := rfl
  have hkey : Text.width forwardingKeyword.toList = 10 := rfl
  refine ⟨fun h => ?_, fun h => ?_⟩
  · simp only [parse?, Token.ofLine_eq, bind, Option.bind_eq_some_iff, Prod.exists] at h
    obtain ⟨ts, h1, t, ts, h2, list, ts, h3, names, h4, t, ts, h5, h6⟩ := h
    obtain ⟨cs, hline, -, rfl⟩ := (Token.takeWord?_eq_some_iff (by decide)).1 h1
    obtain ⟨cs, rfl, -, rfl⟩ := (Token.take?_eq_some_iff hopen).1 h2
    obtain ⟨body, after, rfl, -, rfl, rfl⟩ := Token.takeBraced?_eq_some_iff.1 h3
    obtain ⟨first, more, hps, rfl, rfl⟩ := NameList.read_eq_some_iff.1 h4
    obtain ⟨cs, rfl, -, rfl⟩ := (Token.take?_eq_some_iff hclose).1 h5
    split at h6
    · rename_i hend
      obtain rfl := Token.ofText_eq_nil.1 (List.isEmpty_iff.1 hend)
      rw [← forwarding_eq] at hline
      exact ⟨first, more, hps, hline, (Option.some.inj h6).symm⟩
    · cases h6
  · obtain ⟨first, more, hps, hline, rfl⟩ := h
    have hbody : '\x7d' ∉ first.chars id ++ trailing id more :=
      NameList.not_mem_parts (by decide) fun p hp =>
        NameList.not_mem_item (hps p hp) (by decide) (by decide) (by decide)
    rw [parse?, Token.ofLine_eq, hline, forwarding_eq,
      Token.takeWord?_ofText (by decide) _ (.of_head rfl)]
    simp only [bind, Option.bind_some, Token.take?_ofText hopen, Token.takeBraced?_ofText hbody,
      Token.take?_ofText hclose, hkey]
    rw [NameList.read_eq_some_iff.2 ⟨first, more, hps, rfl, rfl⟩]
    rfl

/-- A line that reads as a Forwarding statement is classified as one. -/
theorem ofLine_of_layout {line : String} {first : Item} {more : List Item}
    (h : line.toList = forwarding first more) : LineForm.ofLine line = .forwarding := by
  rw [forwarding_eq] at h
  have hne : line ≠ "" := by
    intro he
    rw [he] at h
    cases h
  have hno : (LineForm.begins "#" line || LineForm.begins "//" line) = false := by
    rw [LineForm.begins, LineForm.begins, h]
    rfl
  have hkey : LineForm.begins forwardingKeyword line = true := by
    rw [LineForm.begins, h]
    exact List.isPrefixOf_iff_prefix.2 (List.prefix_append ..)
  rw [LineForm.ofLine, if_neg hne, hno, hkey]
  rfl

end Forwarding

/-- Reading a Forwarding statement is exact: a line is read exactly if it is the layout of one, the
names are those of every layout of the line, in order, and names and commas stand at their places in
a line that is classified as Forwarding. -/
theorem forwarding_parse_exact (minLength : Nat) (line : String) :
    ((Forwarding.parse? minLength line).isSome = true ↔ ∃ first more,
      (∀ p ∈ first :: more, p.Valid (OptionalName minLength)) ∧
        line.toList = forwarding first more) ∧
    ∀ f, Forwarding.parse? minLength line = some f →
      f.inputs.StandsIn line.toList ∧ LineForm.ofLine line = .forwarding ∧
      ∀ first more, (∀ p ∈ first :: more, p.Valid (OptionalName minLength)) →
        line.toList = forwarding first more →
          f.inputs.names.map Name.text = (first :: more).map (fun p => .ofList p.core) ∧
          f.inputs = nameList 12 first more := by
  refine ⟨?_, fun f hf => ?_⟩
  · rw [Option.isSome_iff_exists]
    simp only [Forwarding.parse?_eq_some_iff]
    exact ⟨fun ⟨_, first, more, hps, hline, _⟩ => ⟨first, more, hps, hline⟩,
      fun ⟨first, more, hps, hline⟩ => ⟨_, first, more, hps, hline, rfl⟩⟩
  · obtain ⟨first, more, hps, hline, rfl⟩ := Forwarding.parse?_eq_some_iff.1 hf
    refine ⟨hline ▸ standsIn_forwarding first more, Forwarding.ofLine_of_layout hline,
      fun first' more' hps' hline' => ?_⟩
    have hf' := Forwarding.parse?_eq_some_iff.2 ⟨first', more', hps', hline', rfl⟩
    have heq := Forwarding.mk.inj (Option.some.inj (hf.symm.trans hf'))
    refine ⟨?_, heq⟩
    rw [heq, NameList.text_nameList]

/-- A list with a padded name, a missing one and one with a pipe. -/
theorem forwarding_parse_exact_gap :
    Forwarding.parse? 1 "Forwarding(\x7b a, ,b|2\x7d)" =
      some ⟨⟨⟨"a", ⟨13, 14⟩⟩, [(⟨14, 15⟩, ⟨"", ⟨16, 16⟩⟩), (⟨16, 17⟩, ⟨"b|2", ⟨17, 20⟩⟩)]⟩⟩ ∧
    LineForm.ofLine "Forwarding(\x7b a, ,b|2\x7d)" = .forwarding :=
  ⟨by decide, ((forwarding_parse_exact 1 _).2 _ (by decide :
    Forwarding.parse? 1 "Forwarding(\x7b a, ,b|2\x7d)" =
      some ⟨⟨⟨"a", ⟨13, 14⟩⟩, [(⟨14, 15⟩, ⟨"", ⟨16, 16⟩⟩), (⟨16, 17⟩, ⟨"b|2", ⟨17, 20⟩⟩)]⟩⟩)).2.1⟩

end LabelFlow
