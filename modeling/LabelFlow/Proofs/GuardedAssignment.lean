import Mathlib.Data.List.TakeWhile
import LabelFlow.Proofs.GuardedNames
import LabelFlow.Statement.Assignment

/-!
# Reading assignments with operations that may fail

An output label is a word and its segments behind dots (`Guarded.segments`), with blanks around it;
it takes as much of a part of a list as `OutputLabel.read` accepts (`Guarded.reads_path`). The
inputs, the term and the outputs of an Assignment statement are read as `Assignment.parse?` reads
them, and nothing fails (`Guarded.assignment_eq`).
-/

set_option autoImplicit false

namespace LabelFlow.Guarded

open Text

/-! ## Segments -/

/-- The name that a token spells. -/
def spelled (t : Token) : Except Misuse Name := do
  let bounds ← placeOf t
  .ok ⟨t.text, bounds⟩

theorem spelled_eq (t : Token) : spelled t = .ok (.ofToken t) := by
  rw [spelled, placeOf_eq]
  rfl

/-- The words behind dots, some of them perhaps absent, and how many tokens they take up. -/
def segments (line : String) : List Token → Except Misuse (List Name × Nat)
  | [] => .ok ([], 0)
  | [dot] => .ok (if dot.kind = .dot then ([.absent (offset line [])], 1) else ([], 0))
  | dot :: next :: rest =>
    if dot.kind = .dot then
      if next.kind = .word then do
        let name ← spelled next
        let (names, n) ← segments line rest
        .ok (name :: names, n + 2)
      else do
        let (names, n) ← segments line (next :: rest)
        .ok (.absent (offset line (next :: rest)) :: names, n + 1)
    else .ok ([], 0)

section
variable {line : String} {front m k : List Token} {dot : Token}

theorem segments_stop (hk : ∀ t ∈ k.head?, t.kind ≠ .dot) : segments line k = .ok ([], 0) := by
  match k with
  | [] => rfl
  | [t] => rw [segments, if_neg (hk t rfl)]
  | t :: u :: k => rw [segments, if_neg (hk t rfl)]

theorem segments_dot (hdot : dot.kind = .dot) (ts : List Token) :
    segments line (dot :: ts) = (do
      match Token.take? .word ts with
      | some (word, rest) =>
        let name ← spelled word
        let (names, n) ← segments line rest
        .ok (name :: names, n + 2)
      | none =>
        let (names, n) ← segments line ts
        .ok (.absent (offset line ts) :: names, n + 1)) := by
  cases ts with
  | nil => exact congrArg Except.ok (if_pos hdot)
  | cons next rest =>
    rw [segments, if_pos hdot, Token.take?]
    by_cases hword : next.kind = .word
    · rw [if_pos hword, if_pos hword]
    · rw [if_neg hword, if_neg hword]

theorem readSegments_dot (hdot : dot.kind = .dot) (ts : List Token) :
    OutputLabel.readSegments (dot :: ts) = match Token.take? .word ts with
      | some (word, rest) => (OutputLabel.readSegments rest).map (.ofToken word :: ·)
      | none => (OutputLabel.readSegments ts).map (.absent dot.stop :: ·) := by
  cases ts with
  | nil => exact if_pos hdot
  | cons next rest =>
    rw [OutputLabel.readSegments, if_pos hdot, Token.take?]
    by_cases hword : next.kind = .word
    · rw [if_pos hword, if_pos hword]
    · rw [if_neg hword, if_neg hword]

theorem readSegments_stop (hm : m ≠ []) (hstop : ∀ t ∈ m.head?, t.kind ≠ .dot) :
    OutputLabel.readSegments m = none := by
  match m with
  | [t] => rw [OutputLabel.readSegments, if_neg (hstop t rfl)]
  | t :: u :: m => rw [OutputLabel.readSegments, if_neg (hstop t rfl)]

/-- Segments take as much of a stretch as they can. -/
theorem segments_append (h : Token.ofLine line = front ++ (m ++ k))
    (hk : ∀ t ∈ k.head?, t.kind ≠ .dot ∧ t.kind ≠ .word) : ∃ names a left, m = a ++ left ∧
      segments line (m ++ k) = .ok (names, a.length) ∧
      OutputLabel.readSegments m = if left = [] then some names else none := by
  induction hn : m.length using Nat.strongRecOn generalizing front m with
  | ind n ih =>
  cases m with
  | nil => exact ⟨[], [], [], rfl, segments_stop fun t ht => (hk t ht).1, rfl⟩
  | cons t m =>
    by_cases hdot : t.kind = .dot
    · rw [List.cons_append, segments_dot hdot, readSegments_dot hdot]
      by_cases hword : ∃ w rest, Token.take? .word m = some (w, rest)
      · obtain ⟨w, rest, hw⟩ := hword
        obtain ⟨rfl, hkind⟩ := eq_cons_of_take? hw
        have hline : Token.ofLine line = (front ++ [t, w]) ++ (rest ++ k) := by simp [h]
        obtain ⟨names, a, left, rfl, hnames, hread⟩ :=
          ih rest.length (by simp only [← hn, List.length_cons]; omega) hline rfl
        have htake : Token.take? .word (w :: (a ++ left) ++ k) = some (w, a ++ left ++ k) :=
          if_pos hkind
        rw [htake, hw]
        dsimp only
        rw [spelled_eq, hnames, hread]
        refine ⟨.ofToken w :: names, t :: w :: a, left, rfl, rfl, ?_⟩
        by_cases hnil : left = [] <;> simp [hnil]
      · have hnone : Token.take? .word m = none := by
          rw [Option.eq_none_iff_forall_not_mem]
          exact fun e he => hword ⟨e.1, e.2, he⟩
        have htake : Token.take? .word (m ++ k) = none := by
          refine take?_eq_none (forall_head?_append (fun u hu hkind => ?_) fun u hu => (hk u hu).2)
          obtain ⟨rest, rfl⟩ := List.head?_eq_some_iff.1 hu
          exact hword ⟨u, rest, if_pos hkind⟩
        have hline : Token.ofLine line = (front ++ [t]) ++ (m ++ k) := by simp [h]
        have hbehind : offset line (m ++ k) = t.stop := offset_cons h
        obtain ⟨names, a, left, rfl, hnames, hread⟩ := ih m.length (by simp [← hn]) hline rfl
        rw [htake, hnone]
        dsimp only
        rw [hnames, hread, hbehind]
        refine ⟨.absent t.stop :: names, t :: a, left, rfl, rfl, ?_⟩
        by_cases hnil : left = [] <;> simp [hnil]
    · have hstop : ∀ {k : List Token}, ∀ u ∈ (t :: m ++ k).head?, u.kind ≠ .dot := by
        rintro k u ⟨⟩
        exact hdot
      refine ⟨[], [], t :: m, rfl, segments_stop hstop, ?_⟩
      rw [readSegments_stop (List.cons_ne_nil t m) (by rintro u ⟨⟩; exact hdot)]
      rfl

end

/-! ## Output labels -/

/-- A word and at least one segment, and how many tokens they take up. -/
def label (line : String) (ts : List Token) : Attempt (OutputLabel × Nat) := do
  let (labelType, rest) ← sure (Token.take? .word ts)
  let (_, rest) ← sure (Token.take? .dot rest)
  match Token.take? .word rest with
  | some (word, rest) =>
    let value ← spelled word
    let (extra, n) ← segments line rest
    let labelType ← spelled labelType
    pure (⟨labelType, some value, extra⟩, n + 3)
  | none =>
    let (extra, n) ← segments line rest
    let labelType ← spelled labelType
    pure (⟨labelType, none, extra⟩, n + 2)

/-- An output label with the blanks around it, and how many tokens they take up. -/
def path (line : String) (ts : List Token) : Attempt (OutputLabel × Nat) := do
  let before := countFront Token.isBlank ts
  let ts := ts.drop before
  let (label, n) ← label line ts
  pure (label, before + (n + countFront Token.isBlank (ts.drop n)))

section
variable {line : String} {front m k : List Token} {t : Token}

/-- The label that a word and its segments make. -/
def labelOf (t : Token) : List Name → Option OutputLabel
  | [] => none
  | value :: extra => some ⟨.ofToken t, if value.isAbsent then none else some value, extra⟩

/-- The label that is spelled by tokens without blanks around them. -/
def unpadded : List Token → Option OutputLabel
  | [] => none
  | t :: ts => if t.kind = .word then (OutputLabel.readSegments ts).bind (labelOf t) else none

theorem read_eq_bind (ts : List Token) :
    OutputLabel.read ts = (Token.unpad? ts).bind unpadded := by
  rw [OutputLabel.read]
  rcases Token.unpad? ts with _ | _ | ⟨t, ts⟩
  · rfl
  · rfl
  · rcases hsegments : OutputLabel.readSegments ts with _ | _ | ⟨value, extra⟩ <;>
      simp [hsegments, unpadded, labelOf]

/-- A label is a word and its segments, of which there is at least one. -/
theorem label_dot {dot : Token} {ts : List Token} (ht : t.kind = .word) (hdot : dot.kind = .dot)
    (hts : ∀ u ∈ ts, u.text ≠ "") : label line (t :: dot :: ts) = (do
      let (names, n) ← segments line (dot :: ts)
      sure ((labelOf t names).map (·, n + 1))) := by
  have hfirst : Token.take? .word (t :: dot :: ts) = some (t, dot :: ts) := if_pos ht
  have hsecond : Token.take? .dot (dot :: ts) = some (dot, ts) := if_pos hdot
  rw [label, hfirst, sure_some_bind]
  dsimp only
  rw [hsecond, sure_some_bind, segments_dot hdot]
  dsimp only
  cases hword : Token.take? .word ts with
  | none =>
    dsimp only
    rw [spelled_eq]
    cases segments line ts <;> rfl
  | some p =>
    obtain ⟨word, rest⟩ := p
    have hmem : word ∈ ts := by
      rw [(eq_cons_of_take? hword).1]
      exact List.mem_cons_self
    have hpresent : (Name.ofToken word).isAbsent = false := beq_eq_false_iff_ne.2 (hts word hmem)
    dsimp only
    rw [spelled_eq, spelled_eq]
    cases segments line rest with
    | error e => rfl
    | ok p =>
      have hlabel : labelOf t (.ofToken word :: p.1) =
          some ⟨.ofToken t, some (.ofToken word), p.1⟩ := by
        rw [labelOf, hpresent]
        rfl
      exact congrArg (fun o : Option OutputLabel => sure (o.map (·, p.2 + 3))) hlabel.symm

/-- An output label takes as much of a stretch as it can. -/
theorem label_append (ht : t.kind = .word) (h : Token.ofLine line = front ++ (t :: m ++ k))
    (hk : ∀ u ∈ k.head?, u.kind ≠ .dot ∧ u.kind ≠ .word) : ∃ o : Option OutputLabel, ∃ a left,
      m = a ++ left ∧ label line (t :: m ++ k) = sure (o.map (·, a.length + 1)) ∧
      unpadded (t :: m) = if left = [] then o else none := by
  rw [unpadded, if_pos ht]
  by_cases hdot : ∃ dot m', m = dot :: m' ∧ dot.kind = .dot
  · obtain ⟨dot, m, rfl, hdot⟩ := hdot
    have hline : Token.ofLine line = (front ++ [t]) ++ (dot :: m ++ k) := by simp [h]
    have htexts : ∀ u ∈ m ++ k, u.text ≠ "" := fun u hu => Token.text_ne_of_mem (by
      rw [hline]
      exact List.mem_append_right _ (List.mem_cons_of_mem dot hu))
    obtain ⟨names, a, left, hm, hnames, hread⟩ := segments_append hline hk
    rw [List.cons_append] at hnames
    refine ⟨labelOf t names, a, left, hm, ?_, ?_⟩
    · rw [List.cons_append, List.cons_append, label_dot ht hdot htexts, hnames]
      rfl
    · rw [hread]
      by_cases hnil : left = [] <;> simp [hnil]
  · have hnot : ∀ u ∈ m.head?, u.kind ≠ .dot := fun u hu hkind => by
      obtain ⟨m', rfl⟩ := List.head?_eq_some_iff.1 hu
      exact hdot ⟨u, m', rfl, hkind⟩
    have hfirst : Token.take? .word (t :: m ++ k) = some (t, m ++ k) := if_pos ht
    have hsecond : Token.take? .dot (m ++ k) = none :=
      take?_eq_none (forall_head?_append hnot fun u hu => (hk u hu).1)
    refine ⟨none, [], m, rfl, ?_, ?_⟩
    · rw [label, hfirst, sure_some_bind]
      dsimp only
      rw [hsecond]
      rfl
    · rw [ite_self]
      by_cases hnil : m = []
      · rw [hnil]
        rfl
      · rw [readSegments_stop hnil hnot]
        rfl

end

/-- What is left behind the blanks of a stretch. -/
theorem drop_countFront_append {α : Type} {p : α → Bool} (xs : List α) {ys : List α}
    (hys : ∀ y ∈ ys.head?, p y = false) :
    (xs ++ ys).drop (countFront p (xs ++ ys)) = xs.dropWhile p ++ ys := by
  obtain ⟨a, b, rfl, ha, hb⟩ := exists_class_front p xs
  rw [List.append_assoc, countFront_append ha (forall_head?_append hb hys), List.drop_left,
    dropWhile_append_stop ha hb]

/-- A label takes as much of a part of a list as the part may hold. -/
theorem reads_path {line : String} {front s tail : List Token}
    (h : Token.ofLine line = front ++ (s ++ tail))
    (htail : ∀ t ∈ tail.head?, t.kind = .comma ∨ t.kind = .closeBrace) :
    Reads s tail (remaining (path line) (s ++ tail)) (OutputLabel.read s) := by
  have hends : ∀ t ∈ tail.head?, t.isBlank = false ∧ t.kind ≠ .dot ∧ t.kind ≠ .word := by
    intro t ht
    rw [Token.isBlank]
    obtain hk | hk := htail t ht <;> rw [hk] <;> exact ⟨rfl, by decide, by decide⟩
  obtain ⟨a, d, rfl, ha, hd⟩ := exists_class_front Token.isBlank s
  obtain ⟨m, z, rfl, hm, hz⟩ := exists_class_front (!Token.isBlank ·) d
  simp only [Bool.not_eq_true', Bool.not_eq_false'] at hm hz
  have hstops : ∀ t ∈ (z ++ tail).head?, t.kind ≠ .dot ∧ t.kind ≠ .word := by
    refine forall_head?_append (fun t ht => ?_) fun t ht => (hends t ht).2
    have hblank := beq_iff_eq.1 (hz t ht)
    rw [hblank]
    exact ⟨by decide, by decide⟩
  have happend : a ++ (m ++ z) ++ tail = a ++ (m ++ (z ++ tail)) := by simp
  have hbefore : countFront Token.isBlank (a ++ (m ++ (z ++ tail))) = a.length := by
    refine countFront_append ha ?_
    rw [← List.append_assoc]
    exact forall_head?_append hd fun t ht => (hends t ht).1
  rw [happend, read_eq_bind, unpad?_append ha hm hd hz, remaining, path, hbefore, List.drop_left]
  by_cases hword : ∃ t ∈ m.head?, t.kind = .word
  · obtain ⟨t, hmem, ht⟩ := hword
    obtain ⟨m, rfl⟩ := List.head?_eq_some_iff.1 hmem
    have hline : Token.ofLine line = (front ++ a) ++ (t :: m ++ (z ++ tail)) := by simp [h]
    obtain ⟨o, b, left, rfl, hlabel, hread⟩ := label_append ht hline hstops
    have hnil : (left ++ z).dropWhile Token.isBlank = [] ↔
        z.all Token.isBlank = true ∧ left = [] := by
      rw [List.dropWhile_eq_nil_iff, List.forall_mem_append, List.all_eq_true, And.comm]
      refine and_congr_right fun _ => ⟨fun hleft => ?_, fun hleft => by simp [hleft]⟩
      refine List.eq_nil_iff_forall_not_mem.2 fun u hu => ?_
      simpa [hleft u hu] using hm u (by simp [hu])
    have hvalue : (if z.all Token.isBlank = true then some (t :: (b ++ left)) else none).bind
        unpadded = if (left ++ z).dropWhile Token.isBlank = [] then o else none := by
      by_cases hall : z.all Token.isBlank = true <;> simp [hall, hnil, hread]
    have hdrop : (t :: (b ++ left) ++ (z ++ tail)).drop (b.length + 1) = left ++ z ++ tail := by
      simp
    rw [hvalue, hlabel]
    cases o with
    | none =>
      rw [ite_self]
      exact .mismatch
    | some l =>
      rw [Option.map_some, sure_some_bind, pure_bind]
      dsimp only
      rw [← List.drop_drop, List.drop_left, ← List.drop_drop, hdrop,
        drop_countFront_append _ fun t ht => (hends t ht).1]
      refine .of_left l fun u hu => ?_
      have hmem := (List.dropWhile_suffix _).subset hu
      simp only [List.mem_append, List.mem_cons] at hmem ⊢
      exact .inr (hmem.imp_left fun hu => .inr (.inr hu))
  · have hnone : ∀ t ∈ (m ++ (z ++ tail)).head?, t.kind ≠ .word :=
      forall_head?_append (fun t ht hk => hword ⟨t, ht, hk⟩) fun t ht => (hstops t ht).2
    have hunpadded : unpadded m = none := by
      cases m with
      | nil => rfl
      | cons t m => exact if_neg fun ht => hword ⟨t, rfl, ht⟩
    have hvalue : (if z.all Token.isBlank = true then some m else none).bind unpadded = none := by
      by_cases hall : z.all Token.isBlank = true <;> simp [hall, hunpadded]
    rw [hvalue, label, take?_eq_none hnone]
    exact .mismatch

/-! ## Lists of output labels -/

/-- Output labels with commas between them, and what is left; there are none where only blanks stand
in front of a closing brace. -/
def labels (line : String) (ts : List Token) : Attempt (List OutputLabel × List Token) := do
  let blank := ts.dropWhile Token.isBlank
  if (Token.take? .closeBrace blank).isSome then pure ([], blank)
  else
    let ((first, more), rest) ← commaList (path line) ts
    pure (first :: more.map Prod.snd, rest)

/-- The output labels of a list are its parts. -/
theorem mapM_stretches_eq_listOf (start : Nat) (body : List Token) :
    (Token.cutAtCommas body).stretches.mapM OutputLabel.read =
      (listOf (fun _ => OutputLabel.read) start body).map fun (first, more) =>
        first :: more.map Prod.snd := by
  have hmore := mapM_optionMap (fun (comma, s) => (OutputLabel.read s).map (comma, ·)) Prod.snd
    (Token.cutAtCommas body).tail
  simp only [Option.map_map, Function.comp_def, Option.map_id'] at hmore
  rw [Pieces.stretches, List.mapM_cons, List.mapM_map, listOf]
  simp only [Function.comp_def]
  rw [hmore]
  cases OutputLabel.read (Token.cutAtCommas body).head with
  | none => rfl
  | some first => cases List.mapM (m := Option) _ (Token.cutAtCommas body).tail <;> rfl

/-- Lists of output labels in braces are read, and nothing fails. -/
theorem labels_eq {line : String} {ts : List Token} (h : ts <:+ Token.ofLine line) :
    inBraces (labels line) ts = sure ((Token.takeBraced? ts).bind fun (list, rest) =>
      (Assignment.readOutputs list).map fun outputs =>
        (outputs, list.opening, list.closing, rest)) := by
  refine inBraces_eq (fun {front body tail opening} hline hopen hclose => ?_) h
  have hbody : Token.ofLine line = (front ++ [opening]) ++ (body ++ tail) := by simp [hline]
  have hlist : Reads body tail (commaList (path line) (body ++ tail))
      (listOf (fun _ => OutputLabel.read) opening.stop body) := by
    rw [← offset_cons hline]
    exact commaList_body (fun _ => OutputLabel.read) reads_path hbody hclose
  have hparts := hlist.map fun (list : OutputLabel × List (Token × OutputLabel)) =>
    list.1 :: list.2.map Prod.snd
  obtain ⟨a, d, rfl, ha, hd⟩ := exists_class_front Token.isBlank body
  have hdrop : (a ++ d ++ tail).dropWhile Token.isBlank = d ++ tail := by
    rw [List.append_assoc]
    exact dropWhile_append_stop ha (forall_head?_append hd fun t ht => by
      rw [Token.isBlank, hclose t ht]
      rfl)
  rw [labels, hdrop]
  cases d with
  | nil =>
    cases tail with
    | nil => exact ⟨_, hparts, fun _ _ h => by cases h⟩
    | cons closing rest =>
      have htake : (Token.take? .closeBrace ([] ++ closing :: rest)).isSome = true := by
        rw [List.nil_append, Token.take?, if_pos (hclose closing rfl)]
        rfl
      rw [if_pos htake]
      refine ⟨some [], .whole [], fun closing rest _ => ?_⟩
      rw [Assignment.readOutputs, if_pos]
      exact List.all_eq_true.2 (by simpa using ha)
  | cons t d =>
    have htake : Token.take? .closeBrace (t :: d ++ tail) = none := if_neg (hopen t (by simp))
    rw [htake, if_neg (by simp)]
    refine ⟨_, hparts, fun closing rest _ => ?_⟩
    rw [Assignment.readOutputs, if_neg, mapM_stretches_eq_listOf opening.stop]
    simp [hd t rfl]

/-! ## Assignments -/

/-- The input names of a list: none if the only one is absent, and otherwise no name may be. -/
def inputsOf (list : NameList) : Option (List Name) :=
  if list.first.isAbsent ∧ list.more = [] then some []
  else if list.names.any Name.isAbsent then none
  else some list.names

/-- An absent name stands for blanks. -/
theorem blank_of_readName {minLength start : Nat} {s : List Token} {n : Name}
    (htext : ∀ t ∈ s, t.text ≠ "") (h : NameList.readName minLength start s = some n)
    (hn : n.isAbsent = true) : s.all Token.isBlank = true := by
  obtain ⟨a, d, rfl, ha, hd⟩ := exists_class_front Token.isBlank s
  obtain ⟨b, z, rfl, hb, hz⟩ := exists_class_front (!Token.isBlank ·) d
  simp only [Bool.not_eq_true', Bool.not_eq_false'] at hb hz
  rw [NameList.readName, unpad?_append ha hb hd hz] at h
  by_cases hall : z.all Token.isBlank = true
  · rw [if_pos hall] at h
    cases b with
    | nil => simpa using ⟨ha, List.all_eq_true.1 hall⟩
    | cons t b =>
      obtain ⟨-, hsome⟩ := Option.ite_none_right_eq_some.1 h
      cases hsome
      refine absurd (String.toList_injective ?_) (htext t (by simp))
      have hnil := congrArg String.toList (beq_iff_eq.1 hn)
      rw [Name.ofTokens, Token.textOf, String.toList_ofList, List.flatMap_cons] at hnil
      exact (List.append_eq_nil_iff.1 hnil).1
  · rw [if_neg hall] at h
    cases h

/-- Only blanks stand in a list whose only name is absent. -/
theorem blank_of_read {minLength : Nat} {list : Braced} {l : NameList}
    (htext : ∀ t ∈ list.body, t.text ≠ "") (h : NameList.read minLength list = some l)
    (hfirst : l.first.isAbsent = true) (hmore : l.more = []) :
    list.body.all Token.isBlank = true := by
  rw [read_eq_listOf] at h
  obtain ⟨s, r, hbody, hs, hr⟩ :=
    exists_class_front (fun t : Token => !(t.kind == .comma)) list.body
  simp only [Bool.not_eq_true', Bool.not_eq_false', beq_iff_eq] at hs hr
  rw [hbody] at h htext ⊢
  cases r with
  | nil =>
    rw [List.append_nil] at h htext ⊢
    rw [listOf_single _ _ hs] at h
    obtain ⟨p, hp, rfl⟩ := Option.map_eq_some_iff.1 h
    obtain ⟨n, hn, rfl⟩ := Option.map_eq_some_iff.1 hp
    exact blank_of_readName htext hn hfirst
  | cons comma r =>
    rw [listOf_append _ _ hs (hr comma rfl)] at h
    obtain ⟨p, hp, rfl⟩ := Option.map_eq_some_iff.1 h
    obtain ⟨n, hn, hp⟩ := Option.bind_eq_some_iff.1 hp
    obtain ⟨q, hq, rfl⟩ := Option.map_eq_some_iff.1 hp
    exact absurd hmore (List.cons_ne_nil _ _)

/-- The input names are those of the list of names. -/
theorem readInputs_eq_bind {minLength : Nat} {list : Braced}
    (htext : ∀ t ∈ list.body, t.text ≠ "") :
    Assignment.readInputs minLength list = (NameList.read minLength list).bind inputsOf := by
  rw [Assignment.readInputs]
  by_cases hall : list.body.all Token.isBlank = true
  · have hblank := List.all_eq_true.1 hall
    have hcomma : ∀ t ∈ list.body, (t.kind == .comma) = false := fun t ht => by
      rw [beq_iff_eq.1 (hblank t ht)]
      rfl
    have hname := readName_absent minLength (k := []) hblank (by simp) list.opening.stop
    rw [List.append_nil, if_pos rfl] at hname
    rw [if_pos hall, read_eq_listOf, listOf_single _ _ hcomma, hname]
    rfl
  · rw [if_neg hall]
    cases hread : NameList.read minLength list with
    | none => rfl
    | some l =>
      rw [Option.bind_some, inputsOf,
        if_neg fun h => hall (blank_of_read htext hread h.1 h.2)]
      rfl

/-- An Assignment statement. -/
def assignment (minLength : Nat) (line : String) (ts : List Token) : Attempt Assignment := do
  let rest ← sure (Token.takeWord? assignmentKeyword ts)
  let (_, rest) ← sure (Token.take? .openParen rest)
  let (list, opening, closing, rest) ←
    inBraces (items minLength line) (rest.dropWhile Token.isParen)
  let inputs ← sure (inputsOf list)
  let (_, rest) ← sure (Token.take? .semicolon (rest.dropWhile Token.isParen))
  let behind := rest.dropWhile Token.isTermPart
  let (_, after) ← sure (Token.take? .semicolon behind)
  let (outputs, _, last, after) ← inBraces (labels line) (after.dropWhile Token.isParen)
  if (after.dropWhile Token.isParen).isEmpty then
    let term ← between line rest behind
    let opened ← placeOf opening
    let closed ← placeOf closing
    let labelSpan ← span (offset line rest) last.stop
    pure ⟨inputs, term, outputs, opened.cover closed, labelSpan⟩
  else failure

theorem isEmpty_dropWhile {α : Type} (p : α → Bool) (xs : List α) :
    (xs.dropWhile p).isEmpty = xs.all p := by
  rw [Bool.eq_iff_iff, List.isEmpty_iff, List.dropWhile_eq_nil_iff, List.all_eq_true]

section
variable {line : String} {ts rest after : List Token} {before : Token}
  (h : ts <:+ Token.ofLine line) (hbefore : Token.take? .semicolon ts = some (before, rest))
include h hbefore

theorem offset_behind : offset line rest = before.stop :=
  offset_of_suffix ((eq_cons_of_take? hbefore).1 ▸ h)

/-- The term is the slice between two semicolons. -/
theorem between_semicolons {t : Token}
    (hafter : Token.take? .semicolon (rest.dropWhile Token.isTermPart) = some (t, after)) :
    between line rest (rest.dropWhile Token.isTermPart) =
      .ok ⟨Token.textOf (rest.takeWhile Token.isTermPart), ⟨before.stop, t.start⟩⟩ := by
  rw [between_eq_of_suffix Token.isTermPart ((suffix_of_take? hbefore).trans h),
    offset_behind h hbefore, (eq_cons_of_take? hafter).1]
  rfl

/-- The region of the labels begins before it ends. -/
theorem span_behind {last : Token} (hlast : last :: after <:+ rest) :
    span (offset line rest) last.stop = .ok ⟨before.stop, last.stop⟩ := by
  have hrest := (suffix_of_take? hbefore).trans h
  have hle := offset_mono ((List.suffix_cons last after).trans hlast) hrest
  rw [offset_behind h hbefore, offset_of_suffix (hlast.trans hrest)] at hle
  rw [offset_behind h hbefore, span_eq hle]

end

/-- An Assignment statement is read from its tokens, and nothing fails. -/
theorem assignment_eq (minLength : Nat) (line : String) :
    assignment minLength line (Token.ofLine line) = sure (Assignment.parse? minLength line) := by
  rw [assignment, Assignment.parse?]
  refine sure_bind fun rest₁ h₁ => sure_bind ?_
  rintro ⟨_, rest₂⟩ h₂
  have hinputs : rest₂.dropWhile Token.isParen <:+ Token.ofLine line :=
    (List.dropWhile_suffix _).trans ((suffix_of_take? h₂).trans (suffix_of_takeWord? h₁))
  dsimp only
  rw [names_eq minLength hinputs]
  cases h₃ : Token.takeBraced? (rest₂.dropWhile Token.isParen) with
  | none => rfl
  | some e =>
    obtain ⟨list, rest₃⟩ := e
    have hterm : rest₃.dropWhile Token.isParen <:+ Token.ofLine line :=
      (List.dropWhile_suffix _).trans
        ((List.suffix_cons _ _).trans ((suffix_of_takeBraced? h₃).trans hinputs))
    have htext : ∀ t ∈ list.body, t.text ≠ "" := fun t ht => by
      rw [eq_of_takeBraced? h₃] at hinputs
      exact Token.text_ne_of_mem (hinputs.subset (by simp [ht]))
    refine (sure_map_bind (NameList.read minLength list) _ _).trans ?_
    dsimp only
    rw [sure_bind_assoc, ← readInputs_eq_bind htext]
    refine sure_bind fun inputs _ => sure_bind ?_
    rintro ⟨before, rest₄⟩ h₄
    refine sure_bind ?_
    rintro ⟨after, rest₅⟩ h₅
    have hbehind : rest₅.dropWhile Token.isParen <:+ rest₄ :=
      (List.dropWhile_suffix _).trans ((suffix_of_take? h₅).trans (List.dropWhile_suffix _))
    dsimp only
    rw [labels_eq (hbehind.trans ((suffix_of_take? h₄).trans hterm))]
    cases h₆ : Token.takeBraced? (rest₅.dropWhile Token.isParen) with
    | none => rfl
    | some e =>
      obtain ⟨outputList, rest₆⟩ := e
      refine (sure_map_bind (Assignment.readOutputs outputList) _ _).trans ?_
      refine sure_bind fun outputs _ => ?_
      dsimp only
      rw [isEmpty_dropWhile, between_semicolons hterm h₄ h₅,
        span_behind hterm h₄ ((suffix_of_takeBraced? h₆).trans hbehind), placeOf_eq, placeOf_eq]
      by_cases hall : rest₆.all Token.isParen = true
      · rw [if_pos hall, if_pos hall]
        rfl
      · rw [if_neg hall, if_neg hall]
        rfl

end LabelFlow.Guarded
