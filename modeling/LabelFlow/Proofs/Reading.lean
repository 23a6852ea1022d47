import LabelFlow.Proofs.Layout
import LabelFlow.Proofs.Lexing

/-!
# Readers on a stretch of text

What the readers of tokens do with the tokens of a stretch, in terms of its characters: a token of a
kind (`Token.take?_eq_some_iff`, after others of a class `take?_dropWhile_eq_some_iff`), a keyword
(`takeWord?_eq_some_iff`), a list in braces (`takeBraced?_eq_some_iff`), what stands between blanks
(`unpad?_eq_some_iff`) and the parts of a comma list (`cutAtCommas_ofText`,
`mapM_placed_eq_some_iff`).
-/

set_option autoImplicit false

namespace LabelFlow

/-! ## Classes of characters -/

namespace Kind

theorem isBlank_ofChar (c : Char) : (ofChar c == .blank) = Text.isBlank c := by
  rw [Bool.eq_iff_iff, beq_iff_eq, ofChar_eq_blank]

theorem isParen_ofChar {c : Char} : (ofChar c).isParen = true ↔ c = '(' ∨ c = ')' := by
  have h : ∀ k : Kind, k.isParen = true ↔ k = .openParen ∨ k = .closeParen := by
    intro k
    cases k <;> simp [isParen]
  rw [h, ofChar_eq_iff rfl, ofChar_eq_iff rfl]

theorem isIdentPart_ofChar {c : Char} :
    (ofChar c).isIdentPart = true ↔ Text.isWord c = true ∨ c = '|' := by
  have h : ∀ k : Kind, k.isIdentPart = true ↔ k = .word ∨ k = .pipe := by
    intro k
    cases k <;> simp [isIdentPart]
  rw [h, ofChar_eq_word, ofChar_eq_iff rfl]

theorem isTermPart_ofChar {c : Char} : (ofChar c).isTermPart = true ↔
    Text.isBlank c = true ∨ c = '!' ∨ Text.isWord c = true ∨ c = '.' ∨ c = '|' ∨ c = '&' ∨
      c = '(' ∨ c = ')' := by
  have h : ∀ k : Kind, k.isTermPart = true ↔ k = .blank ∨ k = .bang ∨ k = .word ∨ k = .dot ∨
      k = .pipe ∨ k = .amp ∨ k = .openParen ∨ k = .closeParen := by
    intro k
    cases k <;> simp [isTermPart]
  rw [h, ofChar_eq_blank, ofChar_eq_word]
  simp only [ofChar_eq_iff (k := .bang) rfl, ofChar_eq_iff (k := .dot) rfl,
    ofChar_eq_iff (k := .pipe) rfl, ofChar_eq_iff (k := .amp) rfl,
    ofChar_eq_iff (k := .openParen) rfl, ofChar_eq_iff (k := .closeParen) rfl]

theorem not_blank_of_identPart {c : Char} (h : Text.isWord c = true ∨ c = '|') :
    Text.isBlank c = false := by
  rw [← isIdentPart_ofChar] at h
  rw [← Bool.not_eq_true, ← ofChar_eq_blank]
  intro hb
  rw [hb] at h
  cases h

end Kind

/-- A list begins with the elements of a class, as many as there are. -/
theorem exists_class_front {α : Type} (p : α → Bool) (xs : List α) :
    ∃ a b, xs = a ++ b ∧ (∀ x ∈ a, p x = true) ∧ ∀ x ∈ b.head?, p x = false := by
  refine ⟨xs.takeWhile p, xs.dropWhile p, List.takeWhile_append_dropWhile.symm, ?_, ?_⟩
  · exact fun x hx => List.all_eq_true.1 List.all_takeWhile x hx
  · intro x hx
    have := List.head?_dropWhile_not p xs
    rw [hx] at this
    simpa using this

namespace Token

open Text (Apart)

/-! ## Single tokens -/

section
variable {k : Kind} {c : Char} (hc : k.char? = some c) {start : Nat} {cs : List Char} {t : Token}
  {rest : List Token}
include hc

theorem take?_ofText (start : Nat) (cs : List Char) :
    take? k (ofText start (c :: cs)) = some (⟨k, .ofList [c], start⟩, ofText (start + 1) cs) := by
  rw [ofText_cons hc, take?, if_pos rfl]

/-- A token after others of a class. -/
theorem take?_dropWhile_ofText {p : Kind → Bool} (hp : p k = false) {a : List Char}
    (ha : ∀ x ∈ a, p (.ofChar x) = true) (start : Nat) (cs : List Char) :
    take? k ((ofText start (a ++ c :: cs)).dropWhile fun t => p t.kind) =
      some (⟨k, .ofList [c], start + Text.width a⟩, ofText (start + Text.width a + 1) cs) := by
  have hb : ∀ x ∈ (c :: cs).head?, p (.ofChar x) = false := by
    rintro x ⟨⟩
    rw [Kind.ofChar_char hc, hp]
  rw [dropWhile_ofText ha hb, take?_ofText hc]

theorem take?_eq_some_iff : take? k (ofText start cs) = some (t, rest) ↔
    ∃ cs', cs = c :: cs' ∧ t = ⟨k, .ofList [c], start⟩ ∧ rest = ofText (start + 1) cs' := by
  refine ⟨fun h => ?_, fun h => ?_⟩
  · cases h0 : ofText start cs with
    | nil =>
      rw [h0] at h
      cases h
    | cons u us =>
      obtain ⟨x, cs', rfl, hu, rfl, hx, hk, -, hone⟩ := ofText_eq_cons h0
      rw [h0, take?] at h
      split at h
      · rename_i hkind
        obtain ⟨rfl, rfl⟩ := Prod.mk.inj (Option.some.inj h)
        obtain ⟨d, hd⟩ := List.length_eq_one_iff.1 (hone (hkind ▸ Kind.isRun_of_char hc))
        obtain rfl : d = c := Kind.eq_of_ofChar hc (by rw [hk d (by simp [hd]), hkind])
        subst hd
        refine ⟨cs', rfl, by rw [hu, hkind], ?_⟩
        rw [Text.width_cons, Text.width_nil, Kind.utf8Size_char hc]
      · cases h
  · obtain ⟨cs', rfl, rfl, rfl⟩ := h
    exact take?_ofText hc start cs'

theorem take?_dropWhile_eq_some_iff {p : Kind → Bool} (hp : p k = false) :
    take? k ((ofText start cs).dropWhile fun t => p t.kind) = some (t, rest) ↔
      ∃ a cs', (∀ x ∈ a, p (.ofChar x) = true) ∧ cs = a ++ c :: cs' ∧
        t = ⟨k, .ofList [c], start + Text.width a⟩ ∧
        rest = ofText (start + Text.width a + 1) cs' := by
  refine ⟨fun h => ?_, fun h => ?_⟩
  · obtain ⟨a, b, rfl, ha, hb⟩ := exists_class_front (fun x => p (.ofChar x)) cs
    rw [dropWhile_ofText ha hb, take?_eq_some_iff hc] at h
    obtain ⟨cs', rfl, ht, hr⟩ := h
    exact ⟨a, cs', ha, rfl, ht, hr⟩
  · obtain ⟨a, cs', ha, rfl, rfl, rfl⟩ := h
    exact take?_dropWhile_ofText hc hp ha start cs'

end

theorem takeWord?_ofText {word : String} (hw : Text.Word word.toList) (start : Nat) {cs : List Char}
    (hap : Apart word.toList cs) : takeWord? word (ofText start (word.toList ++ cs)) =
      some (ofText (start + Text.width word.toList) cs) := by
  rw [ofText_run hw.1 (fun c hc => Kind.ofChar_eq_word.2 (hw.2 c hc)) rfl hap, takeWord?,
    if_pos ⟨rfl, String.ofList_toList⟩]

theorem takeWord?_eq_some_iff {word : String} (hw : Text.Word word.toList) {start : Nat}
    {cs : List Char} {rest : List Token} : takeWord? word (ofText start cs) = some rest ↔
      ∃ cs', cs = word.toList ++ cs' ∧ Apart word.toList cs' ∧
        rest = ofText (start + Text.width word.toList) cs' := by
  refine ⟨fun h => ?_, fun h => ?_⟩
  · cases h0 : ofText start cs with
    | nil =>
      rw [h0] at h
      cases h
    | cons u us =>
      obtain ⟨x, cs', rfl, hu, rfl, -, -, hap, -⟩ := ofText_eq_cons h0
      rw [h0, takeWord?] at h
      split at h
      · rename_i hword
        obtain rfl := Option.some.inj h
        rw [hu] at hword
        obtain ⟨-, rfl⟩ := hword
        rw [String.toList_ofList]
        exact ⟨cs', rfl, hap, rfl⟩
      · cases h
  · obtain ⟨cs', rfl, hap, rfl⟩ := h
    exact takeWord?_ofText hw start hap

end Token

/-! ## Lists in braces -/

/-- The list in braces whose opening brace stands at an offset. -/
def Braced.ofText (start : Nat) (body : List Char) : Braced :=
  ⟨⟨.openBrace, .ofList ['\x7b'], start⟩, Token.ofText (start + 1) body,
    ⟨.closeBrace, .ofList ['\x7d'], start + 1 + Text.width body⟩⟩

@[simp] theorem Braced.stop_opening (start : Nat) (body : List Char) :
    (Braced.ofText start body).opening.stop = start + 1 := Token.stop_mk ..

@[simp] theorem Braced.stop_closing (start : Nat) (body : List Char) :
    (Braced.ofText start body).closing.stop = start + 1 + Text.width body + 1 := Token.stop_mk ..

theorem Braced.span_ofText (start : Nat) (body : List Char) :
    (Braced.ofText start body).span = ⟨start, start + 1 + Text.width body + 1⟩ := by
  rw [span, Span.cover, Token.span, Token.span, stop_closing, stop_opening]
  simp only [ofText, Span.mk.injEq]
  omega

namespace Token

/-- A brace does not close in a list in braces. -/
theorem not_closeBrace_iff {cs : List Char} :
    (∀ x ∈ cs, (Kind.ofChar x != .closeBrace) = true) ↔ '\x7d' ∉ cs := by
  simp only [bne_iff_ne, ne_eq, Kind.ofChar_eq_iff (c := '\x7d') (k := .closeBrace) rfl]
  exact ⟨fun h hm => h _ hm rfl, fun h x hx he => h (he ▸ hx)⟩

theorem takeWhile_not_closeBrace {body : List Char} (h : '\x7d' ∉ body) (start : Nat)
    (after : List Char) : (ofText start (body ++ '\x7d' :: after)).takeWhile
      (fun t => t.kind != .closeBrace) = ofText start body := by
  refine takeWhile_ofText (p := (· != .closeBrace)) (not_closeBrace_iff.2 h) ?_ start
  rintro x ⟨⟩
  rfl

theorem takeBraced?_ofText {body : List Char} (h : '\x7d' ∉ body) (start : Nat)
    (after : List Char) : takeBraced? (ofText start ('\x7b' :: (body ++ '\x7d' :: after))) =
      some (.ofText start body, ofText (start + 1 + Text.width body + 1) after) := by
  have hclose := take?_dropWhile_ofText (k := .closeBrace) rfl (p := (· != .closeBrace)) rfl
    (not_closeBrace_iff.2 h) (start + 1) after
  simp only [takeBraced?, take?_ofText (k := .openBrace) rfl, bind, Option.bind_some, hclose,
    takeWhile_not_closeBrace h]
  rfl

section
variable {start : Nat} {cs : List Char} {b : Braced} {rest : List Token}

theorem takeBraced?_eq_some_iff : takeBraced? (ofText start cs) = some (b, rest) ↔
    ∃ body after, cs = '\x7b' :: (body ++ '\x7d' :: after) ∧ '\x7d' ∉ body ∧
      b = .ofText start body ∧ rest = ofText (start + 1 + Text.width body + 1) after := by
  refine ⟨fun h => ?_, fun h => ?_⟩
  · simp only [takeBraced?, bind, Option.bind_eq_some_iff, Prod.exists, Option.some.injEq,
      Prod.mk.injEq] at h
    obtain ⟨opening, inner, h1, closing, after, h2, rfl, rfl⟩ := h
    obtain ⟨cs', rfl, rfl, rfl⟩ := (take?_eq_some_iff (k := .openBrace) rfl).1 h1
    obtain ⟨a, cs'', ha, rfl, rfl, rfl⟩ :=
      (take?_dropWhile_eq_some_iff (k := .closeBrace) rfl (p := (· != .closeBrace)) rfl).1 h2
    rw [not_closeBrace_iff] at ha
    exact ⟨a, cs'', rfl, ha, by rw [takeWhile_not_closeBrace ha]; rfl, rfl⟩
  · obtain ⟨body, after, rfl, hb, rfl, rfl⟩ := h
    exact takeBraced?_ofText hb start after

end

theorem isParen_class {cs : List Char} :
    (∀ x ∈ cs, (Kind.ofChar x).isParen = true) ↔ Text.Parens cs :=
  forall₂_congr fun _ _ => Kind.isParen_ofChar

/-- A list in braces after parentheses. -/
theorem takeBraced?_dropWhile_ofText {parens body : List Char} (hp : Text.Parens parens)
    (h : '\x7d' ∉ body) (start : Nat) (after : List Char) :
    takeBraced? ((ofText start (parens ++ '\x7b' :: (body ++ '\x7d' :: after))).dropWhile isParen) =
      some (.ofText (start + Text.width parens) body,
        ofText (start + Text.width parens + 1 + Text.width body + 1) after) := by
  have hdrop : (ofText start (parens ++ '\x7b' :: (body ++ '\x7d' :: after))).dropWhile isParen =
      ofText (start + Text.width parens) ('\x7b' :: (body ++ '\x7d' :: after)) :=
    dropWhile_ofText (isParen_class.2 hp) (by rintro x ⟨⟩; rfl) start
  rw [hdrop, takeBraced?_ofText h]

theorem takeBraced?_dropWhile_eq_some_iff {start : Nat} {cs : List Char} {b : Braced}
    {rest : List Token} : takeBraced? ((ofText start cs).dropWhile isParen) = some (b, rest) ↔
      ∃ parens body after, Text.Parens parens ∧
        cs = parens ++ '\x7b' :: (body ++ '\x7d' :: after) ∧ '\x7d' ∉ body ∧
        b = .ofText (start + Text.width parens) body ∧
        rest = ofText (start + Text.width parens + 1 + Text.width body + 1) after := by
  refine ⟨fun h => ?_, fun h => ?_⟩
  · obtain ⟨a, d, rfl, ha, hd⟩ := exists_class_front (fun x => (Kind.ofChar x).isParen) cs
    have hdrop : (ofText start (a ++ d)).dropWhile isParen = ofText (start + Text.width a) d :=
      dropWhile_ofText ha hd start
    rw [hdrop, takeBraced?_eq_some_iff] at h
    obtain ⟨body, after, rfl, hb, rfl, rfl⟩ := h
    exact ⟨a, body, after, isParen_class.1 ha, rfl, hb, rfl, rfl⟩
  · obtain ⟨a, body, after, ha, rfl, hb, rfl, rfl⟩ := h
    exact takeBraced?_dropWhile_ofText ha hb start after

/-! ## What stands between blanks -/

theorem unpad?_ofText {start : Nat} {a b z : List Char} (ha : Text.Blank a)
    (hb : ∀ c ∈ b, Text.isBlank c = false) (hbz : ∀ c ∈ (b ++ z).head?, Text.isBlank c = false)
    (hz : ∀ c ∈ z.head?, Text.isBlank c = true) : unpad? (ofText start (a ++ (b ++ z))) =
      if z.all Text.isBlank then some (ofText (start + Text.width a) b) else none := by
  have h1 : (ofText start (a ++ (b ++ z))).dropWhile isBlank =
      ofText (start + Text.width a) (b ++ z) :=
    dropWhile_ofText (p := (· == .blank)) (fun c hc => (Kind.isBlank_ofChar c).trans (ha c hc))
      (fun c hc => (Kind.isBlank_ofChar c).trans (hbz c hc)) start
  have hb' : ∀ c ∈ b, (!(Kind.ofChar c == .blank)) = true := by
    simpa only [Kind.isBlank_ofChar, Bool.not_eq_true']
  have hz' : ∀ c ∈ z.head?, (!(Kind.ofChar c == .blank)) = false := by
    simpa only [Kind.isBlank_ofChar, Bool.not_eq_false']
  have h2 := dropWhile_ofText (p := (! · == .blank)) hb' hz' (start + Text.width a)
  have h3 := takeWhile_ofText (p := (! · == .blank)) hb' hz' (start + Text.width a)
  have h4 := all_ofText (· == .blank) (start + Text.width a + Text.width b) z
  simp only [Kind.isBlank_ofChar] at h4
  simp only [unpad?, h1]
  rw [show (ofText (start + Text.width a) (b ++ z)).dropWhile (fun t => !t.isBlank) = _ from h2,
    show (ofText (start + Text.width a) (b ++ z)).takeWhile (fun t => !t.isBlank) = _ from h3,
    show (ofText (start + Text.width a + Text.width b) z).all isBlank = _ from h4]

theorem unpad?_eq_some_iff {start : Nat} {cs : List Char} {ts : List Token} :
    unpad? (ofText start cs) = some ts ↔ ∃ a b z, Text.Blank a ∧ Text.Blank z ∧
      (∀ c ∈ b, Text.isBlank c = false) ∧ cs = a ++ (b ++ z) ∧
      ts = ofText (start + Text.width a) b := by
  refine ⟨fun h => ?_, fun h => ?_⟩
  · obtain ⟨a, d, rfl, ha, hd⟩ := exists_class_front Text.isBlank cs
    obtain ⟨b, z, rfl, hb, hz⟩ := exists_class_front (fun c => !Text.isBlank c) d
    simp only [Bool.not_eq_true', Bool.not_eq_false'] at hb hz
    rw [unpad?_ofText ha hb hd hz] at h
    split at h
    · rename_i hall
      exact ⟨a, b, z, ha, fun c hc => List.all_eq_true.1 hall c hc, hb, rfl,
        (Option.some.inj h).symm⟩
    · cases h
  · obtain ⟨a, b, z, ha, hz, hb, rfl, rfl⟩ := h
    cases b with
    | nil =>
      -- nothing stands between the blanks, so all of them stand in front
      have haz : Text.Blank (a ++ z) := fun c hc => (List.mem_append.1 hc).elim (ha c) (hz c)
      have h : unpad? (ofText start (a ++ z ++ ([] ++ []))) = _ :=
        unpad?_ofText haz (by simp) (by simp) (by simp)
      simpa using h
    | cons c b =>
      rw [unpad?_ofText ha hb (by rintro x ⟨⟩; exact hb c (by simp))
        fun c hc => hz c (List.mem_of_head? hc), if_pos (List.all_eq_true.2 hz)]

end Token

/-! ## Comma lists -/

namespace Pieces

variable {α : Type} {p : α → Bool}

theorem cut_of_forall {xs : List α} (h : ∀ x ∈ xs, p x = false) : cut p xs = ⟨xs, []⟩ := by
  induction xs with
  | nil => rfl
  | cons x xs ih =>
    rw [cut_other (h x (by simp)), ih fun y hy => h y (by simp [hy])]

theorem cut_append_cons {a : List α} {s : α} (ha : ∀ x ∈ a, p x = false) (hs : p s = true)
    (b : List α) : cut p (a ++ s :: b) = ⟨a, (s, (cut p b).head) :: (cut p b).tail⟩ := by
  induction a with
  | nil => exact cut_separator hs b
  | cons x a ih =>
    rw [List.cons_append, cut_other (ha x (by simp)), ih fun y hy => ha y (by simp [hy])]

/-- Cutting undoes joining. -/
theorem cut_join {s : α} (hs : p s = true) {first : List α} {more : List (List α)}
    (h : ∀ x ∈ first :: more, ∀ y ∈ x, p y = false) :
    cut p (first ++ more.flatMap (s :: ·)) = ⟨first, more.map (s, ·)⟩ := by
  induction more generalizing first with
  | nil => simpa using cut_of_forall (h first (by simp))
  | cons x more ih =>
    rw [List.flatMap_cons, List.cons_append, cut_append_cons (h first (by simp)) hs,
      ih fun y hy => h y (by simp [hy])]
    rfl

theorem not_mem_of_cut (p : α → Bool) (xs : List α) :
    (∀ y ∈ (cut p xs).head, p y = false) ∧
      ∀ e ∈ (cut p xs).tail, p e.1 = true ∧ ∀ y ∈ e.2, p y = false := by
  induction xs with
  | nil => simp
  | cons x xs ih =>
    cases h : p x with
    | true =>
      rw [cut_separator h]
      exact ⟨by simp, List.forall_mem_cons.2 ⟨⟨h, ih.1⟩, ih.2⟩⟩
    | false =>
      rw [cut_other h]
      exact ⟨List.forall_mem_cons.2 ⟨h, ih.1⟩, ih.2⟩

/-- Every list is stretches without a separator, with separators between them. -/
theorem exists_join [DecidableEq α] (s : α) (xs : List α) : ∃ first more,
    xs = first ++ more.flatMap (s :: ·) ∧ ∀ x ∈ first :: more, s ∉ x := by
  have hcut := not_mem_of_cut (· == s) xs
  refine ⟨(cut (· == s) xs).head, (cut (· == s) xs).tail.map Prod.snd, ?_, ?_⟩
  · conv => lhs; rw [← join_cut (· == s) xs]
    rw [join, List.flatMap_map, List.flatMap_def, List.flatMap_def]
    congr 2
    apply List.map_congr_left
    intro e he
    rw [beq_iff_eq.1 (hcut.2 e he).1]
  · intro x hx hm
    rcases List.mem_cons.1 hx with rfl | hx
    · simpa using hcut.1 s hm
    · obtain ⟨e, he, rfl⟩ := List.mem_map.1 hx
      simpa using (hcut.2 e he).2 s hm

end Pieces

namespace Token

/-- A comma at an offset. -/
def comma (offset : Nat) : Token := ⟨.comma, .ofList [','], offset⟩

@[simp] theorem stop_comma (offset : Nat) : (comma offset).stop = offset + 1 := stop_mk ..

@[simp] theorem span_comma (offset : Nat) : (comma offset).span = ⟨offset, offset + 1⟩ := by
  rw [span, stop_comma]
  rfl

theorem cutAtCommas_ofText (start : Nat) {first : List Char} {more : List (List Char)}
    (h : ∀ x ∈ first :: more, ',' ∉ x) :
    cutAtCommas (ofText start (first ++ more.flatMap (',' :: ·))) =
      ⟨ofText start first, (Text.placed id (start + Text.width first) more).map fun e =>
        (comma e.1, ofText (e.1 + 1) e.2)⟩ := by
  have hcomma : Kind.comma.char? = some ',' := rfl
  have hno : ∀ {s : Nat} {x : List Char}, ',' ∉ x →
      ∀ t ∈ ofText s x, (t.kind == .comma) = false := by
    intro s x hx t ht
    obtain ⟨c, hc, hk⟩ := exists_of_mem_ofText ht
    rw [hk, beq_eq_false_iff_ne, ne_eq, Kind.ofChar_eq_iff hcomma]
    exact fun he => hx (he ▸ hc)
  induction more generalizing start first with
  | nil => simpa [cutAtCommas] using Pieces.cut_of_forall (hno (h first (by simp)))
  | cons x more ih =>
    have hx : ∀ y ∈ x :: more, ',' ∉ y := fun y hy => h y (by simp [hy])
    have hrest := ih (start + Text.width first + 1) hx
    rw [List.flatMap_cons, List.cons_append, ofText_append start (.of_head rfl), ofText_cons hcomma,
      cutAtCommas, Pieces.cut_append_cons (hno (h first (by simp))) rfl]
    rw [cutAtCommas] at hrest
    rw [hrest]
    rfl

/-- Reading each stretch of a list, where each reading says how its stretch is written. -/
theorem mapM_placed_eq_some_iff {α β : Type} {read : Nat × List Char → Option β}
    {written : α → List Char} {ok : α → Prop} {value : Nat × α → β}
    (hread : ∀ o x y, read (o, x) = some y ↔ ∃ p, ok p ∧ x = written p ∧ y = value (o, p))
    {offset : Nat} {xs : List (List Char)} {ys : List β} :
    (Text.placed id offset xs).mapM read = some ys ↔ ∃ ps, (∀ p ∈ ps, ok p) ∧
      xs = ps.map written ∧ ys = (Text.placed written offset ps).map value := by
  induction xs generalizing offset ys with
  | nil =>
    rw [Text.placed_nil, List.mapM_nil]
    refine ⟨fun h => ?_, fun h => ?_⟩
    · obtain rfl := Option.some.inj h
      exact ⟨[], by simp, rfl, rfl⟩
    · obtain ⟨ps, -, hps, rfl⟩ := h
      obtain rfl := List.map_eq_nil_iff.1 hps.symm
      rfl
  | cons x xs ih =>
    simp only [Text.placed_cons, List.mapM_cons, bind, Option.bind_eq_some_iff, hread, ih, pure,
      Option.some.injEq]
    refine ⟨fun h => ?_, fun h => ?_⟩
    · obtain ⟨y, ⟨p, hp, rfl, rfl⟩, ys', ⟨ps, hps, rfl, rfl⟩, rfl⟩ := h
      exact ⟨p :: ps, List.forall_mem_cons.2 ⟨hp, hps⟩, rfl, rfl⟩
    · obtain ⟨ps, hps, hx, rfl⟩ := h
      cases ps with
      | nil => cases hx
      | cons p ps =>
        obtain ⟨hp, hps⟩ := List.forall_mem_cons.1 hps
        obtain ⟨rfl, rfl⟩ := List.cons.inj hx
        exact ⟨_, ⟨p, hp, rfl, rfl⟩, _, ⟨ps, hps, rfl, rfl⟩, rfl⟩

end Token

end LabelFlow
