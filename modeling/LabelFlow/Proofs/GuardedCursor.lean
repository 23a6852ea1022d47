import LabelFlow.Proofs.Guarded
import LabelFlow.Proofs.Places

/-!
# Reading statements with operations that may fail

A statement is read token by token, from left to right, and a name is a slice of the line between
the offsets of two tokens (`Guarded.between`). What is left to read always ends the tokens of the
line, so its offset is the width of what stands before it (`offset_eq`), and no such slice fails.
A comma list is read until no comma follows (`Guarded.commaList`). Where its parts take as much of a
stretch as they can (`Guarded.Reads`), so does the list of what ends at its brace
(`Guarded.commaList_body`).
-/

set_option autoImplicit false

namespace LabelFlow

open Text

/-! ## Offsets -/

namespace Token

theorem charsOf_ofLine (line : String) : charsOf (ofLine line) = line.toList := by
  have h := congrArg String.toList (textOf_ofText 0 line.toList)
  rwa [textOf, String.toList_ofList, String.toList_ofList] at h

theorem exists_place {start : Nat} {ls : List Lexeme} {a b : List Token}
    (h : place start ls = a ++ b) : ∃ l, b = place (start + width (charsOf a)) l := by
  induction a generalizing start ls with
  | nil => exact ⟨ls, h.symm⟩
  | cons t a ih =>
    cases ls with
    | nil => cases h
    | cons l ls =>
      obtain ⟨rfl, hrest⟩ := List.cons_eq_cons.1 h
      obtain ⟨l', rfl⟩ := ih hrest
      exact ⟨l', by rw [charsOf_cons, String.toList_ofList, width_append, Nat.add_assoc]⟩

end Token

namespace Guarded

/-- The offset at which the rest of the tokens of a line begins. -/
def offset (line : String) (ts : List Token) : Nat :=
  (ts.head?.map Token.start).getD (width line.toList)

section
variable {line : String} {front back a b : List Token}

/-- The rest of the tokens of a line begins behind what stands before it. -/
theorem offset_eq (h : Token.ofLine line = front ++ back) :
    offset line back = width (Token.charsOf front) := by
  obtain ⟨l, rfl⟩ := Token.exists_place h
  cases l with
  | nil =>
    have hall := Token.charsOf_ofLine line
    rw [h, Token.place_nil, List.append_nil] at hall
    rw [Token.place_nil, hall]
    rfl
  | cons l ls => exact Nat.zero_add _

theorem offset_append (h : Token.ofLine line = front ++ (a ++ b)) :
    offset line b = offset line (a ++ b) + width (Token.charsOf a) := by
  rw [offset_eq h, ← width_append, ← Token.charsOf_append]
  exact offset_eq (h.trans (List.append_assoc ..).symm)

theorem offset_cons {t : Token} (h : Token.ofLine line = front ++ t :: b) :
    offset line b = t.stop := by
  rw [offset_append (a := [t]) h]
  exact congrArg (t.start + width ·) (List.append_nil _)

/-- Some tokens end where the others begin. -/
theorem stopOr_eq (h : Token.ofLine line = front ++ (a ++ b)) :
    Token.stopOr (offset line (a ++ b)) a = offset line b := by
  rcases List.eq_nil_or_concat a with rfl | ⟨a, t, rfl⟩
  · rfl
  · rw [Token.stopOr, List.concat_eq_append, List.getLast?_concat]
    have hcons : Token.ofLine line = (front ++ a) ++ t :: b := by
      rw [h, List.concat_eq_append]
      simp
    exact (offset_cons hcons).symm

end

/-- What is left later begins further on. -/
theorem offset_mono {line : String} {a b : List Token} (hab : a <:+ b)
    (hb : b <:+ Token.ofLine line) : offset line b ≤ offset line a := by
  obtain ⟨front, hfront⟩ := hb
  obtain ⟨mid, rfl⟩ := hab
  rw [offset_append hfront.symm]
  exact Nat.le_add_right ..

/-! ## Names -/

/-- The name that the line spells from where some tokens begin up to where others do. -/
def between (line : String) (ts rest : List Token) : Except Misuse Name := do
  let text ← slice line.toList (offset line ts) (offset line rest)
  let bounds ← span (offset line ts) (offset line rest)
  .ok ⟨.ofList text, bounds⟩

/-- The bytes of a token. -/
def placeOf (t : Token) : Except Misuse Span := span t.start t.stop

@[simp] theorem placeOf_eq (t : Token) : placeOf t = .ok t.span := span_eq (Nat.le_add_right ..)

theorem between_eq {line : String} {front a b : List Token}
    (h : Token.ofLine line = front ++ (a ++ b)) : between line (a ++ b) b =
      .ok ⟨Token.textOf a, ⟨offset line (a ++ b), offset line b⟩⟩ := by
  have hslice := slice_append (Token.charsOf front) (Token.charsOf a) (Token.charsOf b)
  have hline : Token.charsOf front ++ (Token.charsOf a ++ Token.charsOf b) = line.toList := by
    rw [← Token.charsOf_ofLine, h, Token.charsOf_append, Token.charsOf_append]
  rw [hline, ← offset_eq h, ← offset_append h] at hslice
  have hle : offset line (a ++ b) ≤ offset line b := by
    rw [offset_append h]
    exact Nat.le_add_right ..
  rw [between, hslice, span_eq hle]
  rfl

theorem offset_of_suffix {line : String} {t : Token} {rest : List Token}
    (h : t :: rest <:+ Token.ofLine line) : offset line rest = t.stop := by
  obtain ⟨front, hfront⟩ := h
  exact offset_cons hfront.symm

/-- The tokens of a class that begin here are a slice of the line. -/
theorem between_eq_of_suffix {line : String} {ts : List Token} (p : Token → Bool)
    (h : ts <:+ Token.ofLine line) : between line ts (ts.dropWhile p) =
      .ok ⟨Token.textOf (ts.takeWhile p), ⟨offset line ts, offset line (ts.dropWhile p)⟩⟩ := by
  obtain ⟨front, hfront⟩ := h
  have hsplit := List.takeWhile_append_dropWhile (p := p) (l := ts)
  rw [← hsplit] at hfront
  have hbetween := between_eq hfront.symm
  rwa [hsplit] at hbetween

/-! ## Readers that may not match -/

/-- A reader whose operations may fail, and which may not match. -/
abbrev Attempt := OptionT (Except Misuse)

/-- A reader that does not fail. -/
def sure {α : Type} (o : Option α) : Attempt α := OptionT.mk (.ok o)

section
variable {α β : Type}

theorem lift_ok (x : α) : (liftM (.ok x : Except Misuse α) : Attempt α) = sure (some x) := rfl

/-- One reader after another does not fail, if the other one does not fail on what the first one
has read. -/
theorem sure_bind {o : Option α} {g : α → Attempt β} {f : α → Option β}
    (h : ∀ x, o = some x → g x = sure (f x)) : (sure o >>= g) = sure (o.bind f) := by
  cases o with
  | none => rfl
  | some x => exact h x rfl

theorem sure_map_bind {γ : Type} (o : Option α) (f : α → β) (g : β → Attempt γ) :
    (sure (o.map f) >>= g) = sure o >>= fun x => g (f x) := by
  cases o <;> rfl

theorem sure_bind_assoc {γ : Type} (o : Option α) (f : α → Option β) (g : β → Attempt γ) :
    (sure o >>= fun x => sure (f x) >>= g) = sure (o.bind f) >>= g := by
  cases o <;> rfl

theorem sure_some_bind (x : α) (g : α → Attempt β) : (sure (some x) >>= g) = g x := rfl

end

/-! ## Taking tokens -/

theorem take?_eq_none {k : Kind} {ts : List Token} (h : ∀ t ∈ ts.head?, t.kind ≠ k) :
    Token.take? k ts = none := by
  cases ts with
  | nil => rfl
  | cons t ts => exact if_neg (h t rfl)

theorem eq_cons_of_take? {k : Kind} {ts rest : List Token} {t : Token}
    (h : Token.take? k ts = some (t, rest)) : ts = t :: rest ∧ t.kind = k := by
  cases ts with
  | nil => cases h
  | cons u us =>
    rw [Token.take?] at h
    split at h
    · cases h
      exact ⟨rfl, by assumption⟩
    · cases h

theorem suffix_of_take? {k : Kind} {ts rest : List Token} {t : Token}
    (h : Token.take? k ts = some (t, rest)) : rest <:+ ts :=
  ⟨[t], (eq_cons_of_take? h).1.symm⟩

theorem suffix_of_takeWord? {word : String} {ts rest : List Token}
    (h : Token.takeWord? word ts = some rest) : rest <:+ ts := by
  cases ts with
  | nil => cases h
  | cons t ts =>
    rw [Token.takeWord?] at h
    split at h
    · cases h
      exact List.suffix_cons t rest
    · cases h

/-! ## Comma lists -/

section
variable {α : Type}

/-- What a reader reads, and what it leaves. -/
def remaining (read : List Token → Attempt (α × Nat)) (ts : List Token) :
    Attempt (α × List Token) := do
  let (x, n) ← read ts
  pure (x, ts.drop n)

/-- What is read, as long as a comma follows, and what is left. -/
def commaList (read : List Token → Attempt (α × Nat)) (ts : List Token) :
    Attempt ((α × List (Token × α)) × List Token) := do
  let (x, n) ← read ts
  match _h : Token.take? .comma (ts.drop n) with
  | none => pure ((x, []), ts.drop n)
  | some (comma, rest) =>
    let ((y, more), rest) ← commaList read rest
    pure ((x, (comma, y) :: more), rest)
termination_by ts.length
decreasing_by
  have hlength := congrArg List.length (eq_cons_of_take? _h).1
  rw [List.length_drop, List.length_cons] at hlength
  omega

/-- The parts behind a part. -/
def following (read : List Token → Attempt (α × Nat)) (x : α) (ts : List Token) :
    Attempt ((α × List (Token × α)) × List Token) :=
  match Token.take? .comma ts with
  | none => pure ((x, []), ts)
  | some (comma, rest) => do
    let ((y, more), rest) ← commaList read rest
    pure ((x, (comma, y) :: more), rest)

theorem commaList_eq (read : List Token → Attempt (α × Nat)) (ts : List Token) :
    commaList read ts = (do
      let (x, rest) ← remaining read ts
      following read x rest) := by
  rw [commaList, remaining, bind_assoc]
  congr 1
  funext (x, n)
  dsimp only
  rw [pure_bind, following]
  split <;> simp_all

section
variable {read : List Token → Attempt (α × Nat)} {x : α} {ts : List Token} {comma : Token}

theorem following_stop (h : ∀ t ∈ ts.head?, t.kind ≠ .comma) :
    following read x ts = sure (some ((x, []), ts)) := by
  rw [following, take?_eq_none h]
  rfl

theorem following_comma (h : comma.kind = .comma) : following read x (comma :: ts) = (do
    let (list, rest) ← commaList read ts
    pure ((x, (comma, list.1) :: list.2), rest)) := by
  rw [following, Token.take?, if_pos h]

end

/-- How a reader takes a stretch of tokens with others behind it, where the stretch alone is read as
`value`. -/
inductive Reads (s tail : List Token) : Attempt (α × List Token) → Option α → Prop
  /-- It takes the whole stretch. -/
  | whole (x : α) : Reads s tail (sure (some (x, tail))) (some x)
  /-- It leaves something of a stretch that is not one. -/
  | part (x : α) {rest : List Token} (left : rest ≠ []) (mem : ∀ t ∈ rest, t ∈ s) :
    Reads s tail (sure (some (x, rest ++ tail))) none
  /-- It does not match. -/
  | mismatch : Reads s tail (sure none) none

theorem Reads.map {β : Type} {s tail : List Token} {r : Attempt (α × List Token)} {v : Option α}
    (h : Reads s tail r v) (f : α → β) : Reads s tail (do
      let (x, rest) ← r
      pure (f x, rest)) (v.map f) := by
  cases h with
  | whole x => exact .whole (f x)
  | part x left mem => exact .part (f x) left mem
  | mismatch => exact .mismatch

section
variable {s s' tail : List Token} {r : Attempt (α × List Token)} {v : Option α}

theorem Reads.mono (h : Reads s tail r v) (hmem : ∀ t ∈ s, t ∈ s') : Reads s' tail r v := by
  cases h with
  | whole x => exact .whole x
  | part x left mem => exact .part x left fun t ht => hmem t (mem t ht)
  | mismatch => exact .mismatch

/-- A reader leaves something unless it takes the whole stretch. -/
theorem Reads.of_left (x : α) {q : List Token} (hmem : ∀ t ∈ q, t ∈ s) :
    Reads s tail (sure (some (x, q ++ tail))) (if q = [] then some x else none) := by
  by_cases hnil : q = []
  · rw [if_pos hnil, hnil]
    exact .whole x
  · rw [if_neg hnil]
    exact .part x hnil hmem

/-- The parts behind a part are read only where it takes its whole stretch. -/
theorem Reads.following {r' : List Token} {w : α → Option (α × List (Token × α))}
    {read : List Token → Attempt (α × Nat)} (h : Reads s (r' ++ tail) r v)
    (hs : ∀ t ∈ s, (t.kind == .comma) = false)
    (hwhole : ∀ x, Reads (s ++ r') tail (following read x (r' ++ tail)) (w x)) :
    Reads (s ++ r') tail (do
      let (x, rest) ← r
      following read x rest) (v.bind w) := by
  cases h with
  | whole x => exact hwhole x
  | @part x rest left mem =>
    obtain ⟨t, rest, rfl⟩ := List.exists_cons_of_ne_nil left
    have hstop : Guarded.following read x (t :: rest ++ (r' ++ tail)) =
        sure (some ((x, []), t :: (rest ++ r') ++ tail)) := by
      rw [following_stop, List.cons_append, List.cons_append, List.append_assoc]
      rintro u ⟨⟩
      exact beq_eq_false_iff_ne.1 (hs t (mem t List.mem_cons_self))
    rw [sure_some_bind]
    dsimp only
    rw [hstop]
    refine .part (x, []) (List.cons_ne_nil t _) ?_
    rw [← List.cons_append]
    exact List.forall_mem_append.2 ⟨fun u hu => List.mem_append_left _ (mem u hu),
      fun u hu => List.mem_append_right _ hu⟩
  | mismatch => exact .mismatch

end

/-- The parts of a comma list, each read behind the offset of what stands before it. -/
def listOf (read : Nat → List Token → Option α) (start : Nat) (body : List Token) :
    Option (α × List (Token × α)) := do
  let pieces := Token.cutAtCommas body
  let first ← read start pieces.head
  let more ← pieces.tail.mapM fun (comma, s) => (read comma.stop s).map (comma, ·)
  some (first, more)

section
variable (value : Nat → List Token → Option α) (start : Nat) {s body : List Token} {comma : Token}

theorem listOf_single (hs : ∀ t ∈ s, (t.kind == .comma) = false) :
    listOf value start s = (value start s).map (·, []) := by
  rw [listOf, Token.cutAtCommas, Pieces.cut_of_forall hs]
  cases value start s <;> rfl

theorem listOf_append (hs : ∀ t ∈ s, (t.kind == .comma) = false) (hc : comma.kind = .comma) :
    listOf value start (s ++ comma :: body) = (value start s).bind fun x =>
      (listOf value comma.stop body).map fun list => (x, (comma, list.1) :: list.2) := by
  rw [listOf, listOf, Token.cutAtCommas, Token.cutAtCommas,
    Pieces.cut_append_cons hs (by rw [hc]; rfl)]
  cases value start s with
  | none => rfl
  | some x =>
    simp only [bind, Option.bind_some, List.mapM_cons]
    cases value comma.stop (Pieces.cut _ body).head with
    | none => rfl
    | some y =>
      simp only [Option.map_some, Option.bind_some, pure]
      cases List.mapM (m := Option) _ (Pieces.cut _ body).tail <;> rfl

end

/-- A comma list takes as much of a stretch as its parts do. -/
theorem commaList_body {line : String} {read : List Token → Attempt (α × Nat)}
    (value : Nat → List Token → Option α)
    (hread : ∀ {front s tail : List Token}, Token.ofLine line = front ++ (s ++ tail) →
      (∀ t ∈ tail.head?, t.kind = .comma ∨ t.kind = .closeBrace) →
      Reads s tail (remaining read (s ++ tail)) (value (offset line (s ++ tail)) s))
    {front body tail : List Token} (h : Token.ofLine line = front ++ (body ++ tail))
    (htail : ∀ t ∈ tail.head?, t.kind = .closeBrace) :
    Reads body tail (commaList read (body ++ tail))
      (listOf value (offset line (body ++ tail)) body) := by
  induction hn : body.length using Nat.strongRecOn generalizing front body with
  | ind n ih =>
  obtain ⟨s, r, rfl, hs, hr⟩ := exists_class_front (fun t : Token => !(t.kind == .comma)) body
  simp only [Bool.not_eq_true', Bool.not_eq_false', beq_iff_eq] at hs hr
  have hends : ∀ t ∈ (r ++ tail).head?, t.kind = .comma ∨ t.kind = .closeBrace :=
    forall_head?_append (fun t ht => .inl (hr t ht)) fun t ht => .inr (htail t ht)
  rw [List.append_assoc] at h ⊢
  have hfirst := hread h hends
  rw [commaList_eq]
  cases r with
  | nil =>
    have hlist : listOf value (offset line (s ++ ([] ++ tail))) (s ++ []) =
        (value (offset line (s ++ ([] ++ tail))) s).bind fun x => some (x, []) := by
      rw [List.append_nil, listOf_single _ _ hs, Option.map_eq_bind]
      rfl
    rw [hlist]
    refine hfirst.following hs fun x => ?_
    rw [List.nil_append, following_stop fun t ht => by rw [htail t ht]; decide]
    exact .whole (x, [])
  | cons comma r =>
    have hcomma : comma.kind = .comma := hr comma rfl
    have hrest : Token.ofLine line = (front ++ (s ++ [comma])) ++ (r ++ tail) := by simp [h]
    have hbehind : comma.stop = offset line (r ++ tail) :=
      (offset_cons (h.trans (List.append_assoc ..).symm)).symm
    have hless : r.length < n := by
      simp only [← hn, List.length_cons, List.length_append]
      omega
    rw [listOf_append _ _ hs hcomma, hbehind]
    refine hfirst.following hs fun x => ?_
    rw [List.cons_append, following_comma hcomma]
    refine ((ih r.length hless hrest rfl).map fun list => (x, (comma, list.1) :: list.2)).mono ?_
    exact fun t ht => List.mem_append_right _ (List.mem_cons_of_mem _ ht)

/-! ## Lists in braces -/

/-- What is read in braces, with the braces, and what is left. -/
def inBraces (read : List Token → Attempt (α × List Token)) (ts : List Token) :
    Attempt (α × Token × Token × List Token) := do
  let (opening, rest) ← sure (Token.take? .openBrace ts)
  let (x, rest) ← read rest
  let (closing, rest) ← sure (Token.take? .closeBrace rest)
  pure (x, opening, closing, rest)

/-- What is left of a stretch without a closing brace does not begin with one. -/
theorem Reads.close {β : Type} {body tail : List Token} {r : Attempt (α × List Token)}
    {v : Option α} (h : Reads body tail r v)
    (hbody : ∀ t ∈ body, (t.kind != .closeBrace) = true) (f : α → Token → List Token → β) :
    (do
      let (x, rest) ← r
      let (closing, rest) ← sure (Token.take? .closeBrace rest)
      pure (f x closing rest)) =
    sure ((Token.take? .closeBrace tail).bind fun (closing, rest) =>
      v.map fun x => f x closing rest) := by
  cases h with
  | whole x => exact sure_bind fun _ _ => rfl
  | @part x rest left mem =>
    have hnone : Token.take? .closeBrace (rest ++ tail) = none := by
      obtain ⟨t, rest, rfl⟩ := List.exists_cons_of_ne_nil left
      exact if_neg fun hk => by simpa [hk] using hbody t (mem t List.mem_cons_self)
    rw [sure_some_bind]
    dsimp only
    rw [hnone]
    cases Token.take? .closeBrace tail <;> rfl
  | mismatch => cases Token.take? .closeBrace tail <;> rfl

theorem takeBraced?_append {opening : Token} {body tail : List Token}
    (hopening : opening.kind = .openBrace) (hbody : ∀ t ∈ body, (t.kind != .closeBrace) = true)
    (htail : ∀ t ∈ tail.head?, (t.kind != .closeBrace) = false) :
    Token.takeBraced? (opening :: (body ++ tail)) =
      (Token.take? .closeBrace tail).map fun (closing, rest) =>
        (⟨opening, body, closing⟩, rest) := by
  rw [Token.takeBraced?, Token.take?, if_pos hopening]
  simp only [bind, Option.bind_some, dropWhile_append_stop hbody htail,
    takeWhile_append_stop hbody htail]
  cases Token.take? .closeBrace tail <;> rfl

theorem eq_of_takeBraced? {ts rest : List Token} {list : Braced}
    (h : Token.takeBraced? ts = some (list, rest)) :
    ts = list.opening :: (list.body ++ list.closing :: rest) := by
  rw [Token.takeBraced?] at h
  simp only [bind, Option.bind_eq_some_iff, Prod.exists] at h
  obtain ⟨opening, inner, h1, closing, after, h2, h3⟩ := h
  cases h3
  rw [(eq_cons_of_take? h1).1, ← (eq_cons_of_take? h2).1]
  exact congrArg _ List.takeWhile_append_dropWhile.symm

theorem suffix_of_takeBraced? {ts rest : List Token} {list : Braced}
    (h : Token.takeBraced? ts = some (list, rest)) : list.closing :: rest <:+ ts :=
  ⟨list.opening :: list.body, (eq_of_takeBraced? h).symm⟩

/-- What takes as much of the body of a list as it can reads the list in braces. -/
theorem inBraces_eq {line : String} {read : List Token → Attempt (α × List Token)}
    {value : Braced → Option α}
    (hread : ∀ {front body tail : List Token} {opening : Token},
      Token.ofLine line = front ++ opening :: (body ++ tail) → (∀ t ∈ body, t.kind ≠ .closeBrace) →
      (∀ t ∈ tail.head?, t.kind = .closeBrace) → ∃ v, Reads body tail (read (body ++ tail)) v ∧
        ∀ closing rest, tail = closing :: rest → v = value ⟨opening, body, closing⟩)
    {ts : List Token} (h : ts <:+ Token.ofLine line) : inBraces read ts =
      sure ((Token.takeBraced? ts).bind fun (list, rest) =>
        (value list).map fun x => (x, list.opening, list.closing, rest)) := by
  obtain ⟨front, hfront⟩ := h
  cases hopen : Token.take? .openBrace ts with
  | none =>
    rw [inBraces, Token.takeBraced?, hopen]
    rfl
  | some e =>
    obtain ⟨opening, rest⟩ := e
    obtain ⟨rfl, hkind⟩ := eq_cons_of_take? hopen
    obtain ⟨body, tail, rfl, hbody, htail⟩ :=
      exists_class_front (fun t : Token => t.kind != .closeBrace) rest
    have hclose : ∀ t ∈ tail.head?, t.kind = .closeBrace := fun t ht => by
      simpa using htail t ht
    obtain ⟨v, hreads, hv⟩ := hread hfront.symm (fun t ht => by simpa using hbody t ht) hclose
    rw [inBraces, hopen, sure_some_bind, takeBraced?_append hkind hbody htail]
    refine (hreads.close hbody fun x closing rest => (x, opening, closing, rest)).trans ?_
    cases tail with
    | nil => rfl
    | cons closing rest =>
      have htake : Token.take? .closeBrace (closing :: rest) = some (closing, rest) :=
        if_pos (hclose closing rfl)
      rw [htake, hv closing rest rfl]
      rfl

end

end Guarded

end LabelFlow
