import Mathlib.Data.List.Chain
import LabelFlow.Proofs.Lexing

/-!
# What the tokens of a line are

`tokenization_exact`: the tokens of a line are the only ones of a list that satisfies
`Token.Tokenization`: together they spell the line, each stands at the bytes of its text in it, the
kind of a token tells which characters it has (`Kind.Admits`), and no two words and no two blank
stretches are neighbours. The kind that a character is given is the one kind it belongs to
(`Kind.ofChar_eq_iff_has`), so such a list begins with the same token as the line does
(`Token.Tokenization.eq_ofText`).
-/

set_option autoImplicit false

namespace LabelFlow

/-! ## Kinds -/

namespace Kind

/-- A character belongs to a kind of token. -/
def Has : Kind → Char → Prop
  | .word, c => Text.isWord c = true
  | .blank, c => Text.isBlank c = true
  | .other, c => ¬ Text.isWord c = true ∧ ¬ Text.isBlank c = true ∧ ∀ k : Kind, k.char? ≠ some c
  | k, c => k.char? = some c

/-- The texts of tokens of a kind: a stretch of any length if the kind is one of stretches, and a
single character if not. -/
def Admits (k : Kind) (cs : List Char) : Prop :=
  if k.isRun then cs ≠ [] ∧ ∀ c ∈ cs, k.Has c else ∃ c, cs = [c] ∧ k.Has c

theorem ofChar_eq_other {c : Char} : ofChar c = .other ↔ Has .other c := by
  refine ⟨fun h => ⟨fun hw => ?_, fun hb => ?_, fun k hk => ?_⟩, ?_⟩
  · rw [ofChar_eq_word.2 hw] at h
    cases h
  · rw [ofChar_eq_blank.2 hb] at h
    cases h
  · rw [ofChar_char hk] at h
    subst h
    cases hk
  · rintro ⟨hword, hblank, hpunct⟩
    exact ofChar_cases (motive := (· = .other)) (absurd · hword) (fun _ h => absurd h hblank)
      (fun k hk => absurd hk (hpunct k)) fun _ => rfl

/-- A character is given the kind it belongs to, and belongs to no other. -/
theorem ofChar_eq_iff_has {k : Kind} {c : Char} : ofChar c = k ↔ k.Has c := by
  cases k with
  | word => exact ofChar_eq_word
  | blank => exact ofChar_eq_blank
  | other => exact ofChar_eq_other
  | _ => exact (ofChar_eq_iff rfl).trans (by simp [Has, char?, eq_comm])

theorem admits_iff {k : Kind} {cs : List Char} : k.Admits cs ↔
    cs ≠ [] ∧ (∀ c ∈ cs, ofChar c = k) ∧ (k.isRun = false → cs.length = 1) := by
  simp only [Admits, ofChar_eq_iff_has]
  split
  · rename_i hrun
    simp [hrun]
  · rename_i hrun
    rw [Bool.not_eq_true] at hrun
    constructor
    · rintro ⟨c, rfl, hc⟩
      simpa using hc
    · rintro ⟨-, hall, hone⟩
      obtain ⟨c, rfl⟩ := List.length_eq_one_iff.1 (hone hrun)
      exact ⟨c, rfl, hall c List.mem_cons_self⟩

end Kind

/-! ## Tokenizations -/

namespace Token

open Text (Apart width)

/-- Two tokens that can be neighbours: they are not both words, nor both blank stretches. -/
def Separate (t u : Token) : Prop :=
  ¬ (t.kind = .word ∧ u.kind = .word) ∧ ¬ (t.kind = .blank ∧ u.kind = .blank)

theorem separate_iff {t u : Token} :
    t.Separate u ↔ (t.kind.isRun = true → t.kind ≠ u.kind) := by
  unfold Separate
  cases t.kind <;> simp [Kind.isRun, eq_comm]

/-- Tokens that a stretch of text is cut into, the first of which begins at the offset `start`. -/
structure Tokenization (start : Nat) (cs : List Char) (tokens : List Token) : Prop where
  join : charsOf tokens = cs
  span_eq : ∀ before t after, tokens = before ++ t :: after →
    t.span = ⟨start + width (charsOf before), start + width (charsOf (before ++ [t]))⟩
  admits : ∀ t ∈ tokens, t.kind.Admits t.text.toList
  separate : tokens.IsChain Separate

/-- A text that a kind admits is one token. -/
theorem ofText_of_admits {k : Kind} {cs : List Char} (h : k.Admits cs) (start : Nat) :
    ofText start cs = [⟨k, .ofList cs, start⟩] := by
  obtain ⟨hne, hkind, hone⟩ := Kind.admits_iff.1 h
  cases hrun : k.isRun with
  | true =>
    have := ofText_run hne hkind hrun (.nil_right cs) start
    simpa using this
  | false =>
    obtain ⟨c, rfl⟩ := List.length_eq_one_iff.1 (hone hrun)
    rw [← hkind c List.mem_cons_self]
    rfl

namespace Tokenization

variable {start : Nat} {cs : List Char} {t : Token} {ts : List Token}

/-- The first token begins where the stretch does, and the others tokenize what it leaves. -/
theorem tail (h : Tokenization start cs (t :: ts)) : t.start = start ∧
    Tokenization (start + width t.text.toList) (charsOf ts) ts := by
  refine ⟨?_, rfl, fun before u after hts => ?_, fun u hu => h.admits u (List.mem_cons_of_mem _ hu),
    h.separate.tail⟩
  · have hspan := h.span_eq [] t ts rfl
    exact congrArg Span.start hspan
  · have hspan := h.span_eq (t :: before) u after (by rw [hts]; rfl)
    rw [hspan, List.cons_append, charsOf_cons, charsOf_cons, Text.width_append, Text.width_append]
    simp only [Nat.add_assoc]

/-- No run goes on behind the first token. -/
theorem apart (h : Tokenization start cs (t :: ts)) : Apart t.text.toList (charsOf ts) := by
  cases ts with
  | nil => exact .nil_right _
  | cons u us =>
    have hsep := separate_iff.1 (List.isChain_cons_cons.1 h.separate).1
    obtain ⟨-, ht, -⟩ := Kind.admits_iff.1 (h.admits t (by simp))
    obtain ⟨hne, hu, -⟩ := Kind.admits_iff.1 (h.admits u (by simp))
    intro x hx y hy hrun
    have hy : y ∈ u.text.toList := by
      rw [charsOf_cons, List.head?_append_of_ne_nil _ hne] at hy
      exact List.mem_of_head? hy
    rw [ht x (List.mem_of_getLast? hx)] at hrun ⊢
    rw [hu y hy]
    exact hsep hrun

/-- There is no other tokenization than the tokens of the stretch. -/
theorem eq_ofText (h : Tokenization start cs ts) : ts = ofText start cs := by
  induction ts generalizing start cs with
  | nil =>
    rw [← h.join]
    rfl
  | cons t ts ih =>
    obtain ⟨hstart, htail⟩ := h.tail
    have hone := ofText_of_admits (h.admits t List.mem_cons_self) start
    rw [← h.join, charsOf_cons, ofText_append start h.apart, hone, ← ih htail, String.ofList_toList,
      ← hstart]
    rfl

end Tokenization

/-- The tokens of a stretch of text are a tokenization of it. -/
theorem tokenization_ofText (start : Nat) (cs : List Char) :
    Tokenization start cs (ofText start cs) := by
  refine ofText_induction (motive := Tokenization) (fun start => ?_) ?_ start cs
  · exact ⟨rfl, by simp, by simp, .nil⟩
  intro start k x rest hx hk hap hone ih
  have hadmits : k.Admits x := Kind.admits_iff.2 ⟨hx, hk, hone⟩
  refine ⟨?_, fun before t after hts => ?_, ?_, ?_⟩
  · rw [charsOf_cons, ih.join, String.toList_ofList]
  · cases before with
    | nil =>
      cases hts
      simp [span, charsOf]
    | cons b before =>
      obtain ⟨rfl, hrest⟩ := List.cons.inj hts
      rw [ih.span_eq before t after hrest, List.cons_append, charsOf_cons, charsOf_cons,
        String.toList_ofList, Text.width_append, Text.width_append]
      simp only [Nat.add_assoc]
  · refine List.forall_mem_cons.2 ⟨?_, ih.admits⟩
    rwa [String.toList_ofList]
  · refine List.isChain_cons.2 ⟨fun u hu => separate_iff.2 fun hrun hsame => ?_, ih.separate⟩
    obtain ⟨us, hus⟩ := List.head?_eq_some_iff.1 hu
    obtain ⟨y, rest', rfl, -, -, hy, hyk, -⟩ := ofText_eq_cons hus
    have hlast := List.getLast?_eq_some_getLast hx
    have hhead := List.head?_eq_some_head hy
    have hx' := hk _ (List.mem_of_getLast? hlast)
    have hy' := hyk _ (List.mem_of_head? hhead)
    -- the last character of the run and the first one behind it are of one kind
    refine hap _ hlast (y.head hy) (by rw [List.head?_append_of_ne_nil _ hy]; exact hhead) ?_ ?_
    · rwa [hx']
    · rw [hx', hy']
      exact hsame

end Token

/-- The tokens of a line are its one tokenization: their texts make up the line, each token spans
the bytes of its text in it, words and blank stretches hold one or more characters of their class,
every other token is a single character, the one of its kind or one of no kind, and neither two
words nor two blank stretches are neighbours. -/
theorem tokenization_exact (line : String) (tokens : List Token) :
    Token.Tokenization 0 line.toList tokens ↔ tokens = Token.ofLine line := by
  refine ⟨fun h => h.eq_ofText, ?_⟩
  rintro rfl
  exact Token.tokenization_ofText 0 line.toList

example : Token.ofLine "a1 \tä;" =
    [⟨.word, "a1", 0⟩, ⟨.blank, " \t", 2⟩, ⟨.other, "ä", 4⟩, ⟨.semicolon, ";", 6⟩] := by decide

end LabelFlow
