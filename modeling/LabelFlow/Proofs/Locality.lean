import LabelFlow.Proofs.Displacement
import LabelFlow.Proofs.Guarded
import LabelFlow.Proofs.Regions

/-!
# Parts of a line by themselves

A part of a line between two ends of tokens has the tokens that it has in the line, and so a term
is read inside a line as it is alone, only so many bytes later (`tokens_local`). At an end of a
token no run goes on (`Token.Boundary.exists_apart`), so cutting there cuts no token, and what is
read of tokens moves with them (`Access.ofTokens_shift`, `Term.parse_shift`). A term without tokens
has no place, and is refused at the offset 0 of whichever line it stands in.
-/

set_option autoImplicit false

namespace LabelFlow

open Text (Apart width)

/-! ## Where a line can be cut -/

/-- An offset at which a token of the line begins or ends, or the line does. -/
def Token.Boundary (line : String) (o : Nat) : Prop :=
  o = 0 ∨ ∃ t ∈ ofLine line, o = t.start ∨ o = t.stop

/-- If no run goes on behind a text, none goes on behind its end. -/
theorem Text.Apart.of_append {a b c : List Char} (h : Apart (a ++ b) c) : Apart b c := by
  intro x hx
  refine h x ?_
  rw [List.getLast?_append, hx, Option.some_or]
  rfl

namespace Token.Boundary

variable {line : String}

/-- No run goes on at a boundary. -/
theorem exists_apart {o : Nat} (h : Boundary line o) :
    ∃ a b, line.toList = a ++ b ∧ Apart a b ∧ o = width a := by
  rcases h with rfl | ⟨t, ht, ho⟩
  · exact ⟨[], line.toList, rfl, .nil_left _, rfl⟩
  obtain ⟨before, after, hline⟩ := List.append_of_mem ht
  rcases ho with rfl | rfl
  · obtain ⟨a, b, hab, hap, -, hb⟩ := ofText_eq_append hline
    obtain ⟨x, rest, -, ht, -⟩ := ofText_eq_cons hb.symm
    refine ⟨a, b, hab, hap, ?_⟩
    rw [ht, Nat.zero_add]
  · have hcut : ofText 0 line.toList = (before ++ [t]) ++ after := by
      rw [List.append_assoc]
      exact hline
    obtain ⟨a, b, hab, hap, ha, -⟩ := ofText_eq_append hcut
    have hstop := stopOr_ofText 0 a
    rw [← ha, Nat.zero_add] at hstop
    refine ⟨a, b, hab, hap, ?_⟩
    simpa [stopOr] using hstop

/-- Two boundaries in order divide the line into three parts, and no run goes on at either. -/
theorem exists_parts {start stop : Nat} (hstart : Boundary line start) (hstop : Boundary line stop)
    (hle : start ≤ stop) : ∃ a b c, line.toList = a ++ (b ++ c) ∧ Apart a (b ++ c) ∧ Apart b c ∧
      start = width a ∧ stop = width a + width b := by
  obtain ⟨a, b, hab, hap, rfl⟩ := hstart.exists_apart
  obtain ⟨a', b', hab', hap', rfl⟩ := hstop.exists_apart
  rcases List.append_eq_append_iff.1 (hab.symm.trans hab') with ⟨m, rfl, rfl⟩ | ⟨m, rfl, rfl⟩
  · exact ⟨a, m, b', hab, hap, hap'.of_append, rfl, Text.width_append ..⟩
  · -- the second boundary is not before the first one, so nothing stands between them
    have hm : m = [] := by
      by_contra hne
      have hpos := Text.width_pos hne
      rw [Text.width_append] at hle
      omega
    subst hm
    exact ⟨a', [], b, by simpa using hab, by simpa using hap, .nil_left b, by simp, by simp⟩

end Token.Boundary

/-! ## Terms -/

/-- What is read of a name's text among the tokens of its line is what is read of the text alone, so
many bytes later. The offset at which a term without tokens is refused stays 0. -/
structure Name.ReadsAlone (name : Name) (tokens : List Token) : Prop where
  accesses : Access.ofTokens tokens = shifted (fun n => List.map (Access.shift n)) name.span.start
    (Access.ofTokens (Token.ofLine name.text))
  tree : name.text ≠ "" → Term.parse tokens =
    shifted Term.shift name.span.start (Term.parse (Token.ofLine name.text))
  empty : name.text = "" → Term.parse tokens = .error ⟨.operand, 0⟩ ∧
    Term.parse (Token.ofLine name.text) = .error ⟨.operand, 0⟩

/-- Tokens that are those of the text alone, so many bytes later, are read as they are. -/
theorem Name.readsAlone_shift (name : Name) :
    name.ReadsAlone ((Token.ofLine name.text).map (Token.shift name.span.start)) where
  accesses := Access.ofTokens_shift _ _
  tree h := by
    refine Term.parse_shift _ fun hnil => h ?_
    exact String.toList_injective (Token.ofText_eq_nil.1 hnil)
  empty h := by
    rw [h]
    exact ⟨rfl, rfl⟩

/-- A part of a line between two boundaries, cut out by itself, has the tokens inside that part of
the line, and the term of an accepted Assignment statement is read in its line as it is alone. -/
theorem tokens_local (line : String) :
    (∀ start stop, Token.Boundary line start → Token.Boundary line stop → start ≤ stop →
      ∃ text, Guarded.slice line.toList start stop = .ok text ∧
        (Token.ofLine (.ofList text)).map (Token.shift start) =
          Token.inside (Token.ofLine line) ⟨start, stop⟩) ∧
    ∀ minLength a, Assignment.parse? minLength line = some a →
      a.term.ReadsAlone (Token.inside (Token.ofLine line) a.term.span) := by
  refine ⟨fun start stop hstart hstop hle => ?_, fun minLength a h => ?_⟩
  · obtain ⟨a, b, c, hline, hab, hbc, rfl, rfl⟩ := hstart.exists_parts hstop hle
    refine ⟨b, ?_, ?_⟩
    · rw [hline, Guarded.slice_append]
    · rw [Token.ofLine_eq, Token.ofLine_eq, hline, Token.inside_ofText hab hbc,
        String.toList_ofList, ← Token.ofText_shift]
  · obtain ⟨l, -, hline, rfl⟩ := Assignment.parse?_eq_some_iff.1 h
    have htokens : Token.inside (Token.ofLine line) l.value.term.span =
        (Token.ofLine l.value.term.text).map (Token.shift l.value.term.span.start) := by
      rw [Layout.Assignment.inside_term hline, Token.ofLine_eq, Layout.Assignment.toList_term,
        ← Token.ofText_shift]
      rfl
    rw [htokens]
    exact l.value.term.readsAlone_shift

/-- A term that is refused at the same symbol in its line and alone, 14 bytes apart, and a term
without tokens. -/
theorem tokens_local_refused : ∃ a b,
    Assignment.parse? 1 "Assignment(\x7b\x7d;A.b.c;\x7b\x7d)" = some a ∧
    Assignment.parse? 1 "Assignment(\x7b\x7d;;\x7b\x7d)" = some b ∧
    (∃ text, Guarded.slice "Assignment(\x7b\x7d;A.b.c;\x7b\x7d)".toList 14 19 = .ok text ∧
      (Token.ofLine (.ofList text)).map (Token.shift 14) =
        Token.inside (Token.ofLine "Assignment(\x7b\x7d;A.b.c;\x7b\x7d)") ⟨14, 19⟩) ∧
    Term.parse (Token.ofLine a.term.text) = .error ⟨.accessEnd, 3⟩ ∧
    Term.parse (Token.inside (Token.ofLine "Assignment(\x7b\x7d;A.b.c;\x7b\x7d)") a.term.span) =
      .error ⟨.accessEnd, 17⟩ ∧
    Term.parse (Token.inside (Token.ofLine "Assignment(\x7b\x7d;;\x7b\x7d)") b.term.span) =
      .error ⟨.operand, 0⟩ := by
  refine ⟨_, _, rfl, rfl, ?_, rfl, ?_, ?_⟩
  · have htokens : ⟨.word, "A", 14⟩ ∈ Token.ofLine "Assignment(\x7b\x7d;A.b.c;\x7b\x7d)" ∧
        ⟨.word, "c", 18⟩ ∈ Token.ofLine "Assignment(\x7b\x7d;A.b.c;\x7b\x7d)" := by decide
    exact (tokens_local _).1 14 19 (.inr ⟨_, htokens.1, .inl rfl⟩) (.inr ⟨_, htokens.2, .inr rfl⟩)
      (by decide)
  · exact ((tokens_local _).2 1 _ rfl).tree (by decide)
  · exact (((tokens_local _).2 1 _ rfl).empty rfl).1

end LabelFlow
