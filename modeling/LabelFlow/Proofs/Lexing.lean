import LabelFlow.Proofs.Offsets
import LabelFlow.Token.Search

/-!
# Tokens of a stretch of text

`Token.ofText` gives the tokens of a stretch that begins at an offset. Cutting a stretch where no
run goes on (`Text.Apart`) cuts its tokens (`Token.ofText_append`), so what readers do with kinds of
tokens they do with classes of characters: `takeWhile_ofText`, `dropWhile_ofText`, `all_ofText`.
`Token.ofText_eq_cons` views the tokens of a stretch from the front, and `Token.inside_ofText` gives
back the tokens of a stretch from those of its line.
-/

set_option autoImplicit false

namespace LabelFlow

section
variable {α : Type} {p : α → Bool} {a b : List α}

theorem takeWhile_append_stop (ha : ∀ x ∈ a, p x = true) (hb : ∀ x ∈ b.head?, p x = false) :
    (a ++ b).takeWhile p = a := by
  rw [List.takeWhile_append_of_pos ha]
  cases b with
  | nil => simp
  | cons x b => simp [hb x rfl]

theorem dropWhile_append_stop (ha : ∀ x ∈ a, p x = true) (hb : ∀ x ∈ b.head?, p x = false) :
    (a ++ b).dropWhile p = b := by
  rw [List.dropWhile_append_of_pos ha]
  cases b with
  | nil => rfl
  | cons x b => simp [hb x rfl]

end

/-! ## Kinds of characters -/

namespace Kind

/-- The only character of a kind of punctuation. -/
def char? : Kind → Option Char
  | .pipe => some '|'
  | .amp => some '&'
  | .bang => some '!'
  | .dot => some '.'
  | .comma => some ','
  | .semicolon => some ';'
  | .openParen => some '('
  | .closeParen => some ')'
  | .openBrace => some '\x7b'
  | .closeBrace => some '\x7d'
  | _ => none

/-- A character is of a word, a blank, the only one of its kind, or of no kind of its own. -/
theorem ofChar_cases {motive : Kind → Prop} {x : Char}
    (word : Text.isWord x = true → motive .word)
    (blank : ¬ Text.isWord x = true → Text.isBlank x = true → motive .blank)
    (punct : ∀ k : Kind, k.char? = some x → motive k)
    (other : ¬ Text.isBlank x = true → motive .other) : motive (ofChar x) := by
  have one : ∀ {c : Char} {k rest : Kind}, k.char? = some c → motive rest →
      motive (if x = c then k else rest) := fun hk hr =>
    iteInduction (fun h => punct _ (h ▸ hk)) fun _ => hr
  refine iteInduction word fun hw => iteInduction (blank hw) fun hb => ?_
  exact one rfl (one rfl (one rfl (one rfl (one rfl (one rfl (one rfl (one rfl (one rfl
    (one rfl (other hb))))))))))

theorem ofChar_char {k : Kind} {c : Char} (h : k.char? = some c) : ofChar c = k := by
  cases k <;> simp only [char?, Option.some.injEq, reduceCtorEq] at h <;> subst h <;> rfl

theorem eq_of_ofChar {k : Kind} {c x : Char} (h : k.char? = some c) (hx : ofChar x = k) :
    x = c := by
  revert hx
  apply ofChar_cases (motive := (· = k → x = c))
  case punct =>
    intro k' hk' hk
    rw [hk, h] at hk'
    exact (Option.some.inj hk').symm
  -- the other kinds have no character of their own
  all_goals
    intros
    subst k
    cases h

theorem ofChar_eq_iff {k : Kind} {c x : Char} (h : k.char? = some c) : ofChar x = k ↔ x = c :=
  ⟨eq_of_ofChar h, fun hx => hx ▸ ofChar_char h⟩

theorem ofChar_eq_word {x : Char} : ofChar x = .word ↔ Text.isWord x = true := by
  refine ⟨?_, fun h => if_pos h⟩
  apply ofChar_cases (motive := (· = .word → Text.isWord x = true))
  case word => exact fun h _ => h
  case blank =>
    intro _ _ h
    cases h
  case punct =>
    intro k hk h
    rw [h] at hk
    cases hk
  case other =>
    intro _ h
    cases h

theorem not_isWord_of_isBlank {x : Char} (h : Text.isBlank x = true) :
    ¬ Text.isWord x = true := by
  simp only [Text.isBlank, Bool.or_eq_true, beq_iff_eq] at h
  obtain (((rfl | rfl) | rfl) | rfl) | rfl := h <;> decide

theorem ofChar_eq_blank {x : Char} : ofChar x = .blank ↔ Text.isBlank x = true := by
  refine ⟨?_, fun h => by rw [ofChar, if_neg (not_isWord_of_isBlank h), if_pos h]⟩
  apply ofChar_cases (motive := (· = .blank → Text.isBlank x = true))
  case word =>
    intro _ h
    cases h
  case blank => exact fun _ h _ => h
  case punct =>
    intro k hk h
    rw [h] at hk
    cases hk
  case other =>
    intro _ h
    cases h

theorem isRun_of_char {k : Kind} {c : Char} (h : k.char? = some c) : k.isRun = false := by
  cases k <;> first | rfl | cases h

theorem utf8Size_char {k : Kind} {c : Char} (h : k.char? = some c) : c.utf8Size = 1 := by
  cases k <;> simp only [char?, Option.some.injEq, reduceCtorEq] at h <;> subst h <;> rfl

end Kind

/-! ## Cutting a text -/

/-- No run of the first text goes on in the second. -/
def Text.Apart (a b : List Char) : Prop :=
  ∀ x ∈ a.getLast?, ∀ y ∈ b.head?, (Kind.ofChar x).isRun = true → Kind.ofChar x ≠ Kind.ofChar y

namespace Text.Apart

@[simp] theorem nil_left (b : List Char) : Apart [] b := by simp [Apart]

@[simp] theorem nil_right (a : List Char) : Apart a [] := by simp [Apart]

/-- A stretch of a class ends where a character outside the class follows. -/
theorem of_class {p : Kind → Bool} {a b : List Char} (ha : ∀ c ∈ a, p (.ofChar c) = true)
    (hb : ∀ c ∈ b.head?, p (.ofChar c) = false) : Apart a b := by
  intro x hx y hy _ he
  have hp := ha x (List.mem_of_getLast? hx)
  rw [he, hb y hy] at hp
  cases hp

theorem of_head {a b : List Char} {c : Char} (h : (Kind.ofChar c).isRun = false) :
    Apart a (c :: b) := by
  intro x _ y hy hx he
  cases hy
  rw [he, h] at hx
  cases hx

theorem of_last {a b : List Char} {c : Char} (h : (Kind.ofChar c).isRun = false) :
    Apart (a ++ [c]) b := by
  intro x hx y _ hr
  simp only [List.getLast?_append, List.getLast?_singleton, Option.some_or, Option.mem_def,
    Option.some.injEq] at hx
  subst hx
  rw [h] at hr
  cases hr

end Text.Apart

namespace Lexeme

open Text (Apart)

theorem ofText_eq_nil {cs : List Char} : ofText cs = [] ↔ cs = [] := by
  refine ⟨fun h => ?_, fun h => h ▸ rfl⟩
  rw [← flatMap_text_ofText cs, h, List.flatMap_nil]

/-- The first lexeme reaches as far as it can, and the others are those of what follows it. -/
theorem ofText_eq_cons {cs : List Char} {l : Lexeme} {ls : List Lexeme} (h : ofText cs = l :: ls) :
    ∃ rest, cs = l.text ++ rest ∧ ls = ofText rest ∧ Apart l.text rest ∧
      (l.kind.isRun = false → l.text.length = 1) := by
  induction cs generalizing l ls with
  | nil => cases h
  | cons c cs ih =>
    rw [ofText_cons] at h
    cases hcs : ofText cs with
    | nil =>
      obtain rfl := ofText_eq_nil.1 hcs
      rw [ofText_nil, push] at h
      cases h
      exact ⟨[], rfl, rfl, Apart.nil_right _, fun _ => rfl⟩
    | cons m ms =>
      have hm := kind_of_mem_ofText m (hcs ▸ List.mem_cons_self)
      obtain ⟨rest, hr, hms, hap, -⟩ := ih hcs
      rw [hcs, push] at h
      split at h
      · -- the character joins the run behind it
        rename_i hrun
        simp only [Bool.and_eq_true, beq_iff_eq] at hrun
        cases h
        refine ⟨rest, by rw [hr]; rfl, hms, ?_, fun hf => ?_⟩
        · intro x hx y hy
          refine hap x ?_ y hy
          rwa [List.getLast?_cons_of_ne_nil hm.1] at hx
        · rw [hrun.1] at hf
          cases hf
      · rename_i hrun
        cases h
        refine ⟨cs, rfl, hcs.symm, ?_, fun _ => rfl⟩
        intro x hx y hy hrx he
        cases hx
        obtain ⟨d, ds, hd⟩ := List.exists_cons_of_ne_nil hm.1
        have hy' : y = d := by simpa [hr, hd, eq_comm] using hy
        have hk : Kind.ofChar d = m.kind := hm.2 d (by simp [hd])
        subst hy'
        simp only [Bool.and_eq_true, beq_iff_eq, ← hk, ← he] at hrun
        exact hrun ⟨hrx, rfl⟩

theorem push_of_apart {c : Char} {cs : List Char} (h : Apart [c] cs) :
    push c (ofText cs) = ⟨.ofChar c, [c]⟩ :: ofText cs := by
  cases hcs : ofText cs with
  | nil => rfl
  | cons m ms =>
    have hm := kind_of_mem_ofText m (hcs ▸ List.mem_cons_self)
    obtain ⟨rest, hr, -, -, -⟩ := ofText_eq_cons hcs
    obtain ⟨d, ds, hd⟩ := List.exists_cons_of_ne_nil hm.1
    have hk : Kind.ofChar d = m.kind := hm.2 d (by simp [hd])
    rw [push, if_neg]
    simp only [Bool.and_eq_true, beq_iff_eq, not_and]
    intro hrun he
    exact h c (by simp) d (by simp [hr, hd]) (he ▸ hrun) (he.symm.trans hk.symm)

/-- Cutting a text where no run goes on cuts its lexemes. -/
theorem ofText_append {a b : List Char} (h : Apart a b) :
    ofText (a ++ b) = ofText a ++ ofText b := by
  induction a with
  | nil => rfl
  | cons c a ih =>
    cases a with
    | nil => rw [List.cons_append, List.nil_append, ofText_cons, push_of_apart h]; rfl
    | cons d a =>
      rw [List.cons_append, ofText_cons, ofText_cons, ih h]
      have hne : ofText (d :: a) ≠ [] := fun he => by simpa using ofText_eq_nil.1 he
      obtain ⟨l, ls, hl⟩ := List.exists_cons_of_ne_nil hne
      rw [hl, List.cons_append, push, push]
      split <;> rfl

/-- A run between other characters is one lexeme. -/
theorem ofText_run {k : Kind} {w : List Char} (hw : w ≠ []) (hk : ∀ c ∈ w, Kind.ofChar c = k)
    (hrun : k.isRun = true) : ofText w = [⟨k, w⟩] := by
  induction w with
  | nil => exact absurd rfl hw
  | cons c w ih =>
    cases w with
    | nil => rw [ofText_cons, ofText_nil, push, hk c (by simp)]
    | cons d w =>
      rw [ofText_cons, ih (by simp) fun x hx => hk x (by simp [hx]), push, if_pos]
      simp [hrun, hk c]

end Lexeme

/-! ## Tokens of a stretch -/

namespace Token

open Text (Apart)

/-- The tokens of a stretch of text that begins at an offset. -/
def ofText (start : Nat) (cs : List Char) : List Token := place start (Lexeme.ofText cs)

theorem ofLine_eq (line : String) : ofLine line = ofText 0 line.toList := rfl

@[simp] theorem ofText_nil (start : Nat) : ofText start [] = [] := rfl

@[simp] theorem stop_mk (k : Kind) (cs : List Char) (start : Nat) :
    stop ⟨k, .ofList cs, start⟩ = start + Text.width cs := by
  rw [stop, String.toList_ofList]

/-- Cutting a stretch where no run goes on cuts its tokens. -/
theorem ofText_append (start : Nat) {a b : List Char} (h : Apart a b) :
    ofText start (a ++ b) = ofText start a ++ ofText (start + Text.width a) b := by
  rw [ofText, Lexeme.ofText_append h, place_append, Lexeme.flatMap_text_ofText]
  rfl

/-- A character of punctuation is a token. -/
theorem ofText_cons {k : Kind} {c : Char} (hc : k.char? = some c) (start : Nat) (cs : List Char) :
    ofText start (c :: cs) = ⟨k, .ofList [c], start⟩ :: ofText (start + 1) cs := by
  have hk := Kind.ofChar_char hc
  have hap : Apart [c] cs := .of_last (a := []) (by rw [hk]; exact Kind.isRun_of_char hc)
  have h1 : ofText start [c] = [⟨k, .ofList [c], start⟩] := by
    rw [← hk]
    rfl
  rw [← List.singleton_append, ofText_append start hap, h1, Text.width_cons, Text.width_nil,
    Kind.utf8Size_char hc]
  rfl

/-- A run is a token. -/
theorem ofText_run {k : Kind} {w cs : List Char} (hw : w ≠ [])
    (hk : ∀ c ∈ w, Kind.ofChar c = k) (hrun : k.isRun = true) (hap : Apart w cs) (start : Nat) :
    ofText start (w ++ cs) = ⟨k, .ofList w, start⟩ :: ofText (start + Text.width w) cs := by
  have hone : ofText start w = [⟨k, .ofList w, start⟩] := by
    rw [ofText, Lexeme.ofText_run hw hk hrun]
    rfl
  rw [ofText_append start hap, hone]
  rfl

theorem ofText_eq_nil {start : Nat} {cs : List Char} : ofText start cs = [] ↔ cs = [] := by
  refine ⟨fun h => ?_, fun h => h ▸ rfl⟩
  cases hl : Lexeme.ofText cs with
  | nil => exact Lexeme.ofText_eq_nil.1 hl
  | cons l ls =>
    rw [ofText, hl] at h
    cases h

/-- The first token of a stretch takes characters off its front, all of the token's kind; the other
tokens are those of the rest. -/
theorem ofText_eq_cons {start : Nat} {cs : List Char} {t : Token} {ts : List Token}
    (h : ofText start cs = t :: ts) :
    ∃ x rest, cs = x ++ rest ∧ t = ⟨t.kind, .ofList x, start⟩ ∧
      ts = ofText (start + Text.width x) rest ∧ x ≠ [] ∧ (∀ c ∈ x, Kind.ofChar c = t.kind) ∧
      Apart x rest ∧ (t.kind.isRun = false → x.length = 1) := by
  cases hl : Lexeme.ofText cs with
  | nil =>
    rw [ofText, hl] at h
    cases h
  | cons l ls =>
    obtain ⟨rest, hcs, hls, hap, hone⟩ := Lexeme.ofText_eq_cons hl
    have hm := Lexeme.kind_of_mem_ofText l (hl ▸ List.mem_cons_self)
    rw [ofText, hl, place_cons] at h
    cases h
    exact ⟨l.text, rest, hcs, rfl, by rw [hls]; rfl, hm.1, hm.2, hap, hone⟩

/-- The first token of a stretch that begins with a character. -/
theorem kind_of_ofText_cons {start : Nat} {c : Char} {cs : List Char} {t : Token} {ts : List Token}
    (h : ofText start (c :: cs) = t :: ts) : t.kind = Kind.ofChar c := by
  obtain ⟨x, rest, hcs, -, -, hx, hk, -⟩ := ofText_eq_cons h
  obtain ⟨d, x, rfl⟩ := List.exists_cons_of_ne_nil hx
  rw [← hk d (by simp), (List.cons.inj hcs).1]

/-- Induction over the tokens of a stretch, from the front. -/
theorem ofText_induction {motive : Nat → List Char → List Token → Prop}
    (nil : ∀ start, motive start [] [])
    (cons : ∀ start k x rest, x ≠ [] → (∀ c ∈ x, Kind.ofChar c = k) → Apart x rest →
      (k.isRun = false → x.length = 1) →
      motive (start + Text.width x) rest (ofText (start + Text.width x) rest) →
      motive start (x ++ rest) (⟨k, .ofList x, start⟩ :: ofText (start + Text.width x) rest))
    (start : Nat) (cs : List Char) : motive start cs (ofText start cs) := by
  induction hn : cs.length using Nat.strongRecOn generalizing start cs with
  | _ n ih =>
    cases h : ofText start cs with
    | nil =>
      obtain rfl := ofText_eq_nil.1 h
      exact nil start
    | cons t ts =>
      obtain ⟨x, rest, rfl, ht, rfl, hx, hk, hap, hone⟩ := ofText_eq_cons h
      rw [ht]
      refine cons start t.kind x rest hx hk hap hone (ih rest.length ?_ _ _ rfl)
      have := List.length_pos_iff.2 hx
      simp only [List.length_append] at hn
      omega

/-! ## Classes of tokens -/

theorem exists_of_mem_ofText {start : Nat} {cs : List Char} {t : Token} (h : t ∈ ofText start cs) :
    ∃ c ∈ cs, t.kind = Kind.ofChar c := by
  revert h
  refine ofText_induction (motive := fun _ cs ts => t ∈ ts → ∃ c ∈ cs, t.kind = Kind.ofChar c)
    (by simp) ?_ start cs
  intro start k x rest hx hk _ _ ih h
  rcases List.mem_cons.1 h with rfl | h
  · obtain ⟨d, x, rfl⟩ := List.exists_cons_of_ne_nil hx
    exact ⟨d, by simp, (hk d (by simp)).symm⟩
  · obtain ⟨c, hc, hk⟩ := ih h
    exact ⟨c, List.mem_append_right _ hc, hk⟩

theorem exists_ofText_of_mem (start : Nat) {cs : List Char} {c : Char} (h : c ∈ cs) :
    ∃ t ∈ ofText start cs, t.kind = Kind.ofChar c := by
  revert h
  refine ofText_induction (motive := fun _ cs ts => c ∈ cs → ∃ t ∈ ts, t.kind = Kind.ofChar c)
    (by simp) ?_ start cs
  intro start k x rest hx hk _ _ ih h
  rcases List.mem_append.1 h with h | h
  · exact ⟨_, List.mem_cons_self, (hk c h).symm⟩
  · obtain ⟨t, ht, hk⟩ := ih h
    exact ⟨t, List.mem_cons_of_mem _ ht, hk⟩

theorem all_ofText (p : Kind → Bool) (start : Nat) (cs : List Char) :
    (ofText start cs).all (fun t => p t.kind) = cs.all fun c => p (.ofChar c) := by
  rw [Bool.eq_iff_iff, List.all_eq_true, List.all_eq_true]
  refine ⟨fun h c hc => ?_, fun h t ht => ?_⟩
  · obtain ⟨t, ht, hk⟩ := exists_ofText_of_mem start hc
    rw [← hk]
    exact h t ht
  · obtain ⟨c, hc, hk⟩ := exists_of_mem_ofText ht
    rw [hk]
    exact h c hc

section
variable {p : Kind → Bool} {a b : List Char} (ha : ∀ c ∈ a, p (.ofChar c) = true)
  (hb : ∀ c ∈ b.head?, p (.ofChar c) = false) (start : Nat)
include ha hb

theorem class_of_ofText :
    (∀ t ∈ ofText start a, p t.kind = true) ∧
      ∀ t ∈ (ofText (start + Text.width a) b).head?, p t.kind = false := by
  refine ⟨fun t ht => ?_, fun t ht => ?_⟩
  · obtain ⟨c, hc, hk⟩ := exists_of_mem_ofText ht
    rw [hk]
    exact ha c hc
  · obtain ⟨ts, hts⟩ := List.head?_eq_some_iff.1 ht
    cases b with
    | nil => cases hts
    | cons c b =>
      rw [kind_of_ofText_cons hts]
      exact hb c rfl

theorem takeWhile_ofText :
    (ofText start (a ++ b)).takeWhile (fun t => p t.kind) = ofText start a := by
  obtain ⟨h1, h2⟩ := class_of_ofText ha hb start
  rw [ofText_append start (.of_class ha hb), takeWhile_append_stop h1 h2]

theorem dropWhile_ofText :
    (ofText start (a ++ b)).dropWhile (fun t => p t.kind) = ofText (start + Text.width a) b := by
  obtain ⟨h1, h2⟩ := class_of_ofText ha hb start
  rw [ofText_append start (.of_class ha hb), dropWhile_append_stop h1 h2]

end

/-! ## Texts and offsets -/

/-- The characters of some tokens. -/
def charsOf (ts : List Token) : List Char := ts.flatMap fun t => t.text.toList

@[simp] theorem charsOf_append (a b : List Token) : charsOf (a ++ b) = charsOf a ++ charsOf b :=
  List.flatMap_append

@[simp] theorem charsOf_cons (t : Token) (ts : List Token) :
    charsOf (t :: ts) = t.text.toList ++ charsOf ts := rfl

theorem textOf_ofText (start : Nat) (cs : List Char) : textOf (ofText start cs) = .ofList cs := by
  refine ofText_induction (motive := fun _ cs ts => textOf ts = .ofList cs)
    (fun _ => rfl) ?_ start cs
  intro start k x rest _ _ _ _ ih
  rw [textOf, String.ofList_inj] at ih ⊢
  rw [List.flatMap_cons, ih, String.toList_ofList]

theorem stopOr_ofText (start : Nat) (cs : List Char) :
    stopOr start (ofText start cs) = start + Text.width cs := by
  refine ofText_induction (motive := fun start cs ts => stopOr start ts = start + Text.width cs)
    (fun _ => rfl) ?_ start cs
  intro start k x rest _ _ _ _ ih
  rw [stopOr] at ih ⊢
  rw [List.getLast?_cons, Option.map_some, Option.getD_some, Text.width_append, ← Nat.add_assoc,
    ← ih]
  cases (ofText (start + Text.width x) rest).getLast? <;> simp

theorem bounds_of_mem_ofText {start : Nat} {cs : List Char} {t : Token} (h : t ∈ ofText start cs) :
    start ≤ t.start ∧ t.start < t.stop ∧ t.stop ≤ start + Text.width cs := by
  revert h
  refine ofText_induction (motive := fun start cs ts => t ∈ ts →
    start ≤ t.start ∧ t.start < t.stop ∧ t.stop ≤ start + Text.width cs) (by simp) ?_ start cs
  intro start k x rest hx _ _ _ ih h
  have hpos := Text.width_pos hx
  rw [Text.width_append]
  rcases List.mem_cons.1 h with rfl | h
  · rw [stop_mk]
    exact ⟨Nat.le_refl _, Nat.lt_add_of_pos_right hpos, by omega⟩
  · have := ih h
    omega

theorem text_ne_of_mem {line : String} {t : Token} (h : t ∈ ofLine line) : t.text ≠ "" := by
  intro hempty
  have hbounds := (bounds_of_mem_ofText h).2.1
  rw [stop, hempty] at hbounds
  exact Nat.lt_irrefl _ hbounds

/-- The tokens inside the span of a stretch are the tokens of that stretch. -/
theorem inside_ofText {a b c : List Char} (hab : Apart a (b ++ c)) (hbc : Apart b c) :
    inside (ofText 0 (a ++ (b ++ c))) ⟨Text.width a, Text.width a + Text.width b⟩ =
      ofText (Text.width a) b := by
  rw [ofText_append 0 hab, Nat.zero_add, ofText_append _ hbc, inside]
  rw [dropWhile_append_stop, takeWhile_append_stop]
  · intro t ht
    exact decide_eq_true (bounds_of_mem_ofText ht).2.2
  · intro t ht
    have := bounds_of_mem_ofText (List.mem_of_head? ht)
    exact decide_eq_false (by simp only; omega)
  · intro t ht
    have := bounds_of_mem_ofText ht
    exact decide_eq_true (by simp only; omega)
  · intro t ht
    apply decide_eq_false
    rcases List.mem_append.1 (List.mem_of_head? ht) with h | h <;>
      have := bounds_of_mem_ofText h <;> simp only <;> omega

end Token

end LabelFlow
