import LabelFlow.Proofs.GuardedCursor
import LabelFlow.Statement

/-!
# Reading lists of names with operations that may fail

A name is an identifier with blanks around it, and the slice of the line that it takes up
(`Guarded.item`). It takes as much of a part of a list as `NameList.readName` accepts
(`Guarded.reads_item`), so lists of names in braces and Forwarding statements are read as
`NameList.read` and `Forwarding.parse?` read them, and nothing fails (`Guarded.names_eq`,
`Guarded.forwarding_eq`).
-/

set_option autoImplicit false

namespace LabelFlow.Guarded

open Text

/-! ## Names -/

/-- The identifier that begins behind the blanks, of at least `minLength` characters, and how many
tokens it takes up with the blanks around it. If none begins there, it is absent. -/
def item (minLength : Nat) (line : String) (ts : List Token) : Attempt (Name × Nat) := do
  let before := countFront Token.isBlank ts
  let ts := ts.drop before
  if (Token.take? .word ts).isSome then
    let n := countFront Token.isIdentPart ts
    let name ← between line ts (ts.drop n)
    if name.text.length < minLength then failure
    else pure (name, before + (n + countFront Token.isBlank (ts.drop n)))
  else pure (.absent (offset line ts), before)

section
variable {line : String} {front s tail : List Token} (minLength : Nat)

/-- Blanks stand only around what stands between blanks. -/
theorem unpad?_append {a b z : List Token} (ha : ∀ t ∈ a, t.isBlank = true)
    (hb : ∀ t ∈ b, t.isBlank = false) (hbz : ∀ t ∈ (b ++ z).head?, t.isBlank = false)
    (hz : ∀ t ∈ z.head?, t.isBlank = true) :
    Token.unpad? (a ++ (b ++ z)) = if z.all Token.isBlank then some b else none := by
  have hb' : ∀ t ∈ b, (!t.isBlank) = true := by simpa only [Bool.not_eq_true'] using hb
  have hz' : ∀ t ∈ z.head?, (!t.isBlank) = false := by simpa only [Bool.not_eq_false'] using hz
  rw [Token.unpad?, dropWhile_append_stop ha hbz, dropWhile_append_stop hb' hz',
    takeWhile_append_stop hb' hz']

theorem isBlank_of_isIdentPart {t : Token} (h : t.isIdentPart = true) : t.isBlank = false := by
  rw [Token.isIdentPart] at h
  rw [Token.isBlank]
  cases ht : t.kind <;> rw [ht] at h <;> first | rfl | cases h

theorem isIdentPart_of_word {t : Token} (h : t.kind = .word) : t.isIdentPart = true := by
  rw [Token.isIdentPart, h]
  rfl

section
variable {a k : List Token} (ha : ∀ t ∈ a, t.isBlank = true)
  (hk : ∀ t ∈ k.head?, t.isBlank = false ∧ t.kind ≠ .word)
include ha hk

/-- No identifier begins behind the blanks. -/
theorem item_absent (line : String) : remaining (item minLength line) (a ++ k) =
    sure (some (.absent (offset line k), k)) := by
  have hcount : countFront Token.isBlank (a ++ k) = a.length :=
    countFront_append ha fun t ht => (hk t ht).1
  have htake : Token.take? .word k = none := take?_eq_none fun t ht => (hk t ht).2
  rw [remaining, item, hcount, List.drop_left, htake]
  exact congrArg (fun rest => sure (some (Name.absent (offset line k), rest))) List.drop_left

theorem readName_absent (start : Nat) : NameList.readName minLength start (a ++ k) =
    if k = [] then some (.absent (Token.stopOr start a)) else none := by
  cases k with
  | nil =>
    have hunpad : Token.unpad? (a ++ []) = some [] :=
      unpad?_append (b := []) (z := []) ha nofun nofun nofun
    rw [NameList.readName, hunpad, List.append_nil]
    rfl
  | cons t k =>
    obtain ⟨b, z, rfl, hb, hz⟩ := exists_class_front (!Token.isBlank ·) k
    simp only [Bool.not_eq_true', Bool.not_eq_false'] at hb hz
    have hunpad := unpad?_append (b := t :: b) ha
      (List.forall_mem_cons.2 ⟨(hk t rfl).1, hb⟩) (fun u hu => (hk u hu).1) hz
    rw [if_neg (List.cons_ne_nil t _), NameList.readName, ← List.cons_append, hunpad]
    by_cases hall : z.all Token.isBlank = true
    · rw [if_pos hall]
      exact if_neg fun h => (hk t rfl).2 h.1
    · rw [if_neg hall]

end

section
variable {a m z k : List Token} {t : Token} (ha : ∀ t ∈ a, t.isBlank = true) (ht : t.kind = .word)
  (hm : ∀ t ∈ m, t.isIdentPart = true) (hz : ∀ t ∈ z, t.isBlank = true)
  (hzk : ∀ t ∈ (z ++ k).head?, t.isIdentPart = false) (hk : ∀ t ∈ k.head?, t.isBlank = false)
include ha ht hm hz hzk hk

/-- An identifier begins behind the blanks. -/
theorem item_name (h : Token.ofLine line = front ++ (a ++ (t :: m ++ (z ++ k)))) :
    remaining (item minLength line) (a ++ (t :: m ++ (z ++ k))) =
      sure (if minLength ≤ (Name.ofTokens t m).text.length then some (.ofTokens t m, k)
        else none) := by
  have hparts : ∀ u ∈ t :: m, u.isIdentPart = true :=
    List.forall_mem_cons.2 ⟨isIdentPart_of_word ht, hm⟩
  have hbefore : countFront Token.isBlank (a ++ (t :: m ++ (z ++ k))) = a.length := by
    refine countFront_append ha ?_
    rintro u ⟨⟩
    exact isBlank_of_isIdentPart (isIdentPart_of_word ht)
  have htake : (Token.take? .word (t :: m ++ (z ++ k))).isSome = true := by
    rw [List.cons_append, Token.take?, if_pos ht]
    rfl
  have hname := countFront_append hparts hzk
  have hafter := countFront_append hz hk
  have hline := h.trans (List.append_assoc ..).symm
  have hspelled : (⟨Token.textOf (t :: m), ⟨offset line (t :: m ++ (z ++ k)),
      offset line (z ++ k)⟩⟩ : Name) = .ofTokens t m := by
    rw [offset_append hline, Name.ofTokens, Token.textOf, String.toList_ofList]
    rfl
  have hdrop : (a ++ (t :: m ++ (z ++ k))).drop (a.length + ((t :: m).length + z.length)) = k := by
    rw [← List.drop_drop, List.drop_left, ← List.drop_drop, List.drop_left, List.drop_left]
  rw [remaining, item, hbefore]
  simp only [List.drop_left, htake, if_true, hname, hafter, between_eq hline, hspelled, lift_ok,
    sure_some_bind]
  by_cases hlength : (Name.ofTokens t m).text.length < minLength
  · rw [if_pos hlength, if_neg (Nat.not_le.2 hlength)]
    rfl
  · rw [if_neg hlength, if_pos (Nat.not_lt.1 hlength), pure_bind]
    dsimp only
    rw [hdrop]
    rfl

theorem readName_name (start : Nat) :
    NameList.readName minLength start (a ++ (t :: m ++ (z ++ k))) = if k = [] then
      if minLength ≤ (Name.ofTokens t m).text.length then some (.ofTokens t m) else none
    else none := by
  have hparts : ∀ u ∈ t :: m, u.isIdentPart = true :=
    List.forall_mem_cons.2 ⟨isIdentPart_of_word ht, hm⟩
  have hnonblank : ∀ u ∈ t :: m, u.isBlank = false := fun u hu =>
    isBlank_of_isIdentPart (hparts u hu)
  have hhead : ∀ {z : List Token}, ∀ u ∈ (t :: m ++ z).head?, u.isBlank = false := by
    rintro z u ⟨⟩
    exact hnonblank t List.mem_cons_self
  cases k with
  | nil =>
    have hunpad := unpad?_append ha hnonblank hhead fun u hu => hz u (List.mem_of_head? hu)
    rw [if_pos rfl, List.append_nil, NameList.readName, hunpad, if_pos (List.all_eq_true.2 hz)]
    simp only [ht, List.all_eq_true.2 hm, true_and]
  | cons u k =>
    rw [if_neg (List.cons_ne_nil u k)]
    have hu := hk u rfl
    cases z with
    | nil =>
      -- the name goes on with something that is no part of one
      obtain ⟨b, z, rfl, hb, hz⟩ := exists_class_front (!Token.isBlank ·) k
      simp only [Bool.not_eq_true', Bool.not_eq_false'] at hb hz
      have hall : ∀ v ∈ t :: m ++ u :: b, v.isBlank = false :=
        List.forall_mem_append.2 ⟨hnonblank, List.forall_mem_cons.2 ⟨hu, hb⟩⟩
      have hunpad := unpad?_append ha hall (by
        rintro v ⟨⟩
        exact hall t List.mem_cons_self) hz
      have hpart := hzk u rfl
      have hparts : (m ++ u :: b).all Token.isIdentPart = false := by simp [hpart]
      have happend : t :: m ++ ([] ++ u :: (b ++ z)) = t :: m ++ u :: b ++ z := by simp
      rw [NameList.readName, happend, hunpad]
      by_cases hall : z.all Token.isBlank = true
      · simp only [if_pos hall, List.cons_append, hparts, Bool.false_eq_true, false_and, and_false,
          if_false]
      · simp only [if_neg hall]
    | cons v z =>
      -- something stands behind the blanks
      have hunpad := unpad?_append (z := v :: z ++ u :: k) ha hnonblank hhead (by
        rintro w ⟨⟩
        exact hz v List.mem_cons_self)
      have hnot : ¬ (v :: z ++ u :: k).all Token.isBlank = true := by simp [hu]
      rw [NameList.readName, hunpad, if_neg hnot]

end

/-- A name takes as much of a part of a list as the part may hold. -/
theorem reads_item (h : Token.ofLine line = front ++ (s ++ tail))
    (htail : ∀ t ∈ tail.head?, t.kind = .comma ∨ t.kind = .closeBrace) :
    Reads s tail (remaining (item minLength line) (s ++ tail))
      (NameList.readName minLength (offset line (s ++ tail)) s) := by
  have hends : ∀ t ∈ tail.head?, t.isBlank = false ∧ t.isIdentPart = false ∧ t.kind ≠ .word := by
    intro t ht
    rw [Token.isBlank, Token.isIdentPart]
    obtain hk | hk := htail t ht <;> rw [hk] <;> exact ⟨rfl, rfl, nofun⟩
  obtain ⟨a, d, rfl, ha, hd⟩ := exists_class_front Token.isBlank s
  by_cases hword : ∃ t ∈ d.head?, t.kind = .word
  · obtain ⟨t, hmem, ht⟩ := hword
    obtain ⟨d, rfl⟩ := List.head?_eq_some_iff.1 hmem
    obtain ⟨m, r, rfl, hm, hr⟩ := exists_class_front Token.isIdentPart d
    obtain ⟨z, q, rfl, hz, hq⟩ := exists_class_front Token.isBlank r
    have happend : a ++ t :: (m ++ (z ++ q)) ++ tail = a ++ (t :: m ++ (z ++ (q ++ tail))) := by
      simp
    have hzk : ∀ u ∈ (z ++ (q ++ tail)).head?, u.isIdentPart = false := by
      rw [← List.append_assoc]
      exact forall_head?_append hr fun u hu => (hends u hu).2.1
    have hk : ∀ u ∈ (q ++ tail).head?, u.isBlank = false :=
      forall_head?_append hq fun u hu => (hends u hu).1
    have hread := readName_name minLength ha ht hm hz hr hq
    rw [List.cons_append] at hread
    rw [hread, happend, item_name minLength ha ht hm hz hzk hk (h.trans (congrArg _ happend))]
    by_cases hlength : minLength ≤ (Name.ofTokens t m).text.length
    · rw [if_pos hlength, if_pos hlength]
      exact .of_left _ fun u hu => by simp [hu]
    · rw [if_neg hlength, if_neg hlength, ite_self]
      exact .mismatch
  · have hfirst : ∀ t ∈ d.head?, t.isBlank = false ∧ t.kind ≠ .word := fun t ht =>
      ⟨hd t ht, fun hk => hword ⟨t, ht, hk⟩⟩
    have hk : ∀ t ∈ (d ++ tail).head?, t.isBlank = false ∧ t.kind ≠ .word :=
      forall_head?_append hfirst fun t ht => ⟨(hends t ht).1, (hends t ht).2.2⟩
    rw [List.append_assoc] at h ⊢
    rw [item_absent minLength ha hk, readName_absent minLength ha hfirst, stopOr_eq h]
    exact .of_left _ fun u hu => List.mem_append_right a hu

end

/-! ## Lists of names -/

/-- A name with the bytes of the comma before it. -/
def separated (e : Token × Name) : Except Misuse (Span × Name) := do
  let bounds ← placeOf e.1
  .ok (bounds, e.2)

/-- Names with commas between them, and what is left. -/
def items (minLength : Nat) (line : String) (ts : List Token) :
    Attempt (NameList × List Token) := do
  let ((first, more), rest) ← commaList (item minLength line) ts
  let more ← liftM (more.mapM separated)
  pure (⟨first, more⟩, rest)

theorem mapM_optionMap {α β γ : Type} (f : α → Option β) (g : β → γ) (xs : List α) :
    xs.mapM (fun x => (f x).map g) = (xs.mapM f).map (List.map g) := by
  induction xs with
  | nil => rfl
  | cons x xs ih =>
    rw [List.mapM_cons, List.mapM_cons, ih]
    cases f x <;> cases xs.mapM f <;> rfl

/-- A list of names is the list of its parts. -/
theorem read_eq_listOf (minLength : Nat) (list : Braced) : NameList.read minLength list =
    (listOf (NameList.readName minLength) list.opening.stop list.body).map fun (first, more) =>
      ⟨first, more.map fun (comma, name) => (comma.span, name)⟩ := by
  have hmore := mapM_optionMap (fun e : Token × List Token =>
    (NameList.readName minLength e.1.stop e.2).map (e.1, ·))
    (fun e => (e.1.span, e.2)) (Token.cutAtCommas list.body).tail
  simp only [Option.map_map, Function.comp_def] at hmore
  rw [NameList.read, listOf]
  dsimp only
  rw [hmore]
  cases NameList.readName minLength list.opening.stop (Token.cutAtCommas list.body).head with
  | none => rfl
  | some first => cases List.mapM (m := Option) _ (Token.cutAtCommas list.body).tail <;> rfl

/-- Lists of names in braces are read, and nothing fails. -/
theorem names_eq (minLength : Nat) {line : String} {ts : List Token}
    (h : ts <:+ Token.ofLine line) : inBraces (items minLength line) ts =
      sure ((Token.takeBraced? ts).bind fun (list, rest) =>
        (NameList.read minLength list).map fun names =>
          (names, list.opening, list.closing, rest)) := by
  refine inBraces_eq (fun {front body tail opening} hline _ hclose => ?_) h
  have hbody : Token.ofLine line = (front ++ [opening]) ++ (body ++ tail) := by simp [hline]
  have hlist := commaList_body (NameList.readName minLength)
    (fun hs ht => reads_item minLength hs ht) hbody hclose
  refine ⟨NameList.read minLength ⟨opening, body, opening⟩, ?_, fun _ _ _ => rfl⟩
  let list : Name × List (Token × Name) → NameList := fun (first, more) =>
    ⟨first, more.map fun (comma, name) => (comma.span, name)⟩
  have hitems : items minLength line (body ++ tail) = (do
      let (parts, rest) ← commaList (item minLength line) (body ++ tail)
      pure (list parts, rest)) := by
    rw [items]
    congr 1
    funext ((first, more), rest)
    dsimp only
    rw [mapM_ok (g := fun (comma, name) => (comma.span, name)) fun e _ => by
      rw [separated, placeOf_eq]
      rfl]
    rfl
  rw [offset_cons hline] at hlist
  rw [hitems, read_eq_listOf]
  exact hlist.map list

/-- A Forwarding statement. -/
def forwarding (minLength : Nat) (line : String) (ts : List Token) : Attempt Forwarding := do
  let rest ← sure (Token.takeWord? forwardingKeyword ts)
  let (_, rest) ← sure (Token.take? .openParen rest)
  let (list, _, _, rest) ← inBraces (items minLength line) rest
  let (_, rest) ← sure (Token.take? .closeParen rest)
  if rest.isEmpty then pure ⟨list⟩ else failure

/-- A Forwarding statement is read from its tokens, and nothing fails. -/
theorem forwarding_eq (minLength : Nat) (line : String) :
    forwarding minLength line (Token.ofLine line) = sure (Forwarding.parse? minLength line) := by
  rw [forwarding, Forwarding.parse?]
  refine sure_bind fun rest hword => sure_bind fun ⟨_, rest'⟩ hparen => ?_
  have hsuffix : rest' <:+ Token.ofLine line :=
    (suffix_of_take? hparen).trans (suffix_of_takeWord? hword)
  dsimp only
  rw [names_eq minLength hsuffix]
  cases Token.takeBraced? rest' with
  | none => rfl
  | some e =>
    obtain ⟨list, rest⟩ := e
    refine (sure_map_bind (NameList.read minLength list) _ _).trans ?_
    exact sure_bind fun names _ => sure_bind fun (_, rest) _ => by cases rest <;> rfl

end LabelFlow.Guarded
