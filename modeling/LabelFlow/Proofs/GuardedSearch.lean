import Mathlib.Data.List.SplitBy
import LabelFlow.Proofs.Guarded
import LabelFlow.Proofs.Occurrences

/-!
# Searching with operations that may fail

The tokens of a region are a slice of those of the line (`Guarded.inside`), and a name is searched
for by indices: a run of words and pipes is told by its first token, and a word is taken with the
token after it or before it (`Guarded.startsOf`). Nothing of this fails, and it finds what
`Token.inside` and `Token.startsOf` do (`Guarded.inside_line`, `Guarded.startsOf_eq`).
-/

set_option autoImplicit false

namespace LabelFlow.Guarded

open Text

/-! ## Regions -/

/-- The tokens from the first one that does not begin before a span, up to the first one that does
not end in it. -/
def inside (ts : List Token) (s : Span) : Except Misuse (List Token) :=
  let start := countFront (fun t => decide (t.start < s.start)) ts
  range ts start (max (countFront (fun t => decide (t.stop ≤ s.stop)) ts) start)

/-- The tokens inside a span are a slice of tokens that stand in order. -/
theorem inside_eq {ts : List Token} (h : Token.InOrder ts) (s : Span) :
    inside ts s = .ok (Token.inside ts s) := by
  let inner := fun t : Token => decide (t.stop ≤ s.stop)
  obtain ⟨a, b, rfl, ha, hb⟩ := exists_class_front (fun t : Token => decide (t.start < s.start)) ts
  rw [inside, Token.inside, countFront, countFront, takeWhile_append_stop ha hb,
    dropWhile_append_stop ha hb]
  show range (a ++ b) a.length (max ((a ++ b).takeWhile inner).length a.length) =
    .ok (b.takeWhile inner)
  by_cases hall : ∀ t ∈ a, inner t = true
  · have hfront : (a ++ b).takeWhile inner = a ++ b.takeWhile inner :=
      List.takeWhile_append_of_pos hall
    have hlength : ((a ++ b).takeWhile inner).length = a.length + (b.takeWhile inner).length := by
      rw [hfront, List.length_append]
    have hle : (b.takeWhile inner).length ≤ b.length := (List.takeWhile_prefix inner).length_le
    rw [hlength, range_eq (by omega) (by rw [List.length_append]; omega), List.drop_left,
      Nat.max_eq_left (Nat.le_add_right ..), Nat.add_sub_cancel_left]
    exact congrArg _ (List.prefix_iff_eq_take.1 (List.takeWhile_prefix inner)).symm
  · -- a token before the span reaches past it, and so does every one that follows
    obtain ⟨t, ht⟩ := not_forall.1 hall
    obtain ⟨hta, hpast⟩ := Classical.not_imp.1 ht
    have hempty : b.takeWhile inner = [] := by
      cases b with
      | nil => rfl
      | cons u b =>
        have hbefore := (List.pairwise_append.1 h).2.2 t hta u List.mem_cons_self
        have hle : u.start ≤ u.stop := Nat.le_add_right ..
        refine List.takeWhile_cons_of_neg ?_
        simp only [inner, decide_eq_true_eq] at hpast ⊢
        omega
    have hshort : ((a ++ b).takeWhile inner).length ≤ a.length := by
      rw [List.takeWhile_append, if_neg]
      · exact (List.takeWhile_prefix inner).length_le
      · intro hlength
        have hself := (List.takeWhile_prefix inner).eq_of_length hlength
        have hinner := List.all_takeWhile (p := inner) (l := a)
        rw [hself] at hinner
        exact hpast (List.all_eq_true.1 hinner t hta)
    rw [Nat.max_eq_right hshort, range_eq (Nat.le_refl _) (by rw [List.length_append]; omega),
      Nat.sub_self, List.take_zero, hempty]

theorem inside_line (line : String) (s : Span) :
    inside (Token.ofLine line) s = .ok (Token.inside (Token.ofLine line) s) :=
  inside_eq (Token.inOrder_ofText 0 line.toList) s

/-! ## Names -/

/-- The indices of the words with a text. -/
def wordsAt (ts : List Token) (name : String) : List Nat :=
  ts.zipIdx.filterMap fun (t, i) => if t.kind = .word ∧ t.text = name then some i else none

/-- Where a run of tokens starts, if it is an identifier with a text. -/
def startOfRun (name : String) (run : List Token) : Except Misuse (Option Nat) := do
  let t ← first run
  .ok (if t.isIdentPart ∧ Token.textOf run = name then some t.start else none)

/-- Where a word with an index starts, if a token with the index after it is a dot. -/
def startBeforeDot (ts : List Token) (i : Nat) : Except Misuse (Option Nat) := do
  if ts[i + 1]?.map Token.kind = some .dot then
    let t ← token ts i
    .ok (some t.start)
  else .ok none

/-- Where a word with an index starts, if there is one before it, of a dot. -/
def startAfterDot (ts : List Token) (i : Nat) : Except Misuse (Option Nat) := do
  if 0 < i then
    let previous ← token ts (← pred i)
    if previous.kind = .dot then
      let t ← token ts i
      .ok (some t.start)
    else .ok none
  else .ok none

/-- The offsets at which a name occurs, in ascending order. -/
def startsOf (ts : List Token) (name : String) (surrounding : Surrounding) :
    Except Misuse (List Nat) := do
  if name = "" then .ok []
  else
    let found ← match surrounding with
      | .identifier => (ts.splitBy fun a b => a.isIdentPart == b.isIdentPart).mapM (startOfRun name)
      | .beforeDot => (wordsAt ts name).mapM (startBeforeDot ts)
      | .afterDot => (wordsAt ts name).mapM (startAfterDot ts)
    .ok found.reduceOption

/-! ### Identifiers -/

/-- Where a run of tokens starts, if it is an identifier with a text and not empty. -/
def startIfRun (name : String) (run : List Token) : Option Nat :=
  run.head?.bind fun t =>
    if t.isIdentPart ∧ Token.textOf run = name then some t.start else none

theorem startOfRun_eq {name : String} {run : List Token} (h : run ≠ []) :
    startOfRun name run = .ok (startIfRun name run) := by
  obtain ⟨t, ts, rfl⟩ := List.exists_cons_of_ne_nil h
  rfl

/-- Tokens begin with a run of tokens that are all parts of identifiers, or all are not. -/
theorem exists_run {ts : List Token} (h : ts ≠ []) : ∃ part run rest, ts = run ++ rest ∧
    run ≠ [] ∧ (∀ t ∈ run, t.isIdentPart = part) ∧ ∀ t ∈ rest.head?, t.isIdentPart = !part := by
  obtain ⟨t, ts, rfl⟩ := List.exists_cons_of_ne_nil h
  obtain ⟨a, b, rfl, ha, hb⟩ := exists_class_front (·.isIdentPart == t.isIdentPart) ts
  refine ⟨t.isIdentPart, t :: a, b, rfl, List.cons_ne_nil t a, ?_, fun u hu => ?_⟩
  · exact List.forall_mem_cons.2 ⟨rfl, fun u hu => beq_iff_eq.1 (ha u hu)⟩
  · have hne := hb u hu
    cases h : u.isIdentPart <;> cases h' : t.isIdentPart <;> simp_all

section
variable {name : String} {part : Bool} {run rest : List Token} (hne : run ≠ [])
  (hrun : ∀ t ∈ run, t.isIdentPart = part) (hrest : ∀ t ∈ rest.head?, t.isIdentPart = !part)
include hne hrun hrest

theorem splitBy_run : (run ++ rest).splitBy (fun a b => a.isIdentPart == b.isIdentPart) =
    run :: rest.splitBy fun a b => a.isIdentPart == b.isIdentPart := by
  have hchain : run.IsChain fun a b => (a.isIdentPart == b.isIdentPart) = true :=
    (List.pairwise_of_forall_mem_list fun a ha b hb => by
      rw [hrun a ha, hrun b hb, beq_self_eq_true]).isChain
  rw [List.splitBy_append, List.splitBy_of_isChain hne hchain]
  · rfl
  · intro t ht u hu
    rw [hrun t (List.mem_of_mem_getLast? ht), hrest u hu]
    cases part <;> rfl

/-- A run is found as a whole, and other tokens are not. -/
theorem startsOf_run : Token.startsOf (run ++ rest) name .identifier =
    (startIfRun name run).toList ++ Token.startsOf rest name .identifier := by
  obtain ⟨t, ts, rfl⟩ := List.exists_cons_of_ne_nil hne
  have hpart : t.isIdentPart = part := hrun t List.mem_cons_self
  cases part with
  | false =>
    rw [Token.startsOf_skip fun u hu => by
      have hu := hrun u hu
      rw [Token.isIdentPart] at hu
      rw [Surrounding.ignores, hu, Bool.not_false]]
    simp [startIfRun, hpart]
  | true =>
    have halone :
        Token.startsOf (t :: ts) name .identifier = (startIfRun name (t :: ts)).toList := by
      rw [Token.startsOf, Token.identifierRuns, Pieces.cut_of_forall fun u hu => by
        rw [hrun u hu, Bool.not_true]]
      simp only [Pieces.stretches, List.map_nil, List.filterMap_cons, List.filterMap_nil,
        Token.startIfNamed, startIfRun, List.head?_cons, Option.bind_some, hpart, true_and]
      split <;> simp_all
    rw [← halone]
    cases rest with
    | nil => rw [List.append_nil, Token.startsOf_nil, List.append_nil]
    | cons u rest =>
      have hu : Surrounding.ignores .identifier u.kind = true := by
        have hu := hrest u rfl
        rw [Token.isIdentPart] at hu
        rw [Surrounding.ignores, hu]
        rfl
      rw [Token.startsOf_append_cons hu, Token.startsOf_cons hu]

end

/-- The identifiers with a text are the runs with it. -/
theorem startsOf_runs (ts : List Token) (name : String) :
    (ts.splitBy fun a b => a.isIdentPart == b.isIdentPart).filterMap (startIfRun name) =
      Token.startsOf ts name .identifier := by
  induction hn : ts.length using Nat.strongRecOn generalizing ts with
  | ind n ih =>
  by_cases hts : ts = []
  · rw [hts, List.splitBy_nil, List.filterMap_nil, Token.startsOf_nil]
  · obtain ⟨part, run, rest, rfl, hne, hrun, hrest⟩ := exists_run hts
    have hlength : rest.length < n := by
      have hpos := List.length_pos_iff.2 hne
      rw [← hn, List.length_append]
      omega
    rw [splitBy_run hne hrun hrest, startsOf_run hne hrun hrest, ← ih _ hlength rest rfl,
      List.filterMap_cons]
    cases startIfRun name run <;> rfl

/-! ### Words -/

theorem exists_of_mem_wordsAt {ts : List Token} {name : String} {i : Nat}
    (h : i ∈ wordsAt ts name) : ∃ t, ts[i]? = some t := by
  obtain ⟨⟨t, j⟩, hmem, ht⟩ := List.mem_filterMap.1 h
  obtain ⟨-, hj⟩ := Option.ite_none_right_eq_some.1 ht
  obtain rfl := Option.some.inj hj
  exact ⟨t, List.mk_mem_zipIdx_iff_getElem?.1 hmem⟩

theorem startBeforeDot_eq {ts : List Token} {i : Nat} (h : ∃ t, ts[i]? = some t) :
    startBeforeDot ts i = .ok (if ts[i + 1]?.map Token.kind = some .dot then
      ts[i]?.map Token.start else none) := by
  obtain ⟨t, ht⟩ := h
  rw [startBeforeDot, token_eq ht, ht]
  split <;> rfl

theorem startAfterDot_eq {ts : List Token} {i : Nat} (h : ∃ t, ts[i]? = some t) :
    startAfterDot ts i = .ok (if 0 < i ∧ ts[i - 1]?.map Token.kind = some .dot then
      ts[i]?.map Token.start else none) := by
  obtain ⟨t, ht⟩ := h
  cases i with
  | zero => rfl
  | succ i =>
    have hi : i < ts.length := Nat.lt_of_succ_lt (List.getElem?_eq_some_iff.1 ht).1
    have hprevious := List.getElem?_eq_getElem hi
    rw [startAfterDot, token_eq ht, ht]
    simp only [pred, bind, Except.bind, token_eq hprevious, Nat.zero_lt_succ, if_true, true_and,
      Nat.add_sub_cancel, hprevious, Option.map_some, Option.some.injEq]
    split <;> rfl

section
variable {name : String}

/-- The words in front of a dot, where some tokens stand before. -/
theorem wordsAt_beforeDot (before ts : List Token) :
    (ts.zipIdx before.length).filterMap (fun (t, i) =>
      if t.kind = .word ∧ t.text = name ∧ (before ++ ts)[i + 1]?.map Token.kind = some .dot then
        some t.start
      else none) = Token.startsOf ts name .beforeDot := by
  induction ts generalizing before with
  | nil => rfl
  | cons t ts ih =>
    have hrest := ih (before ++ [t])
    rw [List.length_append, List.append_assoc] at hrest
    cases ts with
    | nil => simp [Token.startsOf, Token.neighbours]
    | cons u ts =>
      have hnext : (before ++ t :: u :: ts)[before.length + 1]? = some u := by simp
      rw [Token.startsOf_beforeDot_cons, ← hrest, List.zipIdx_cons, List.filterMap_cons]
      simp only [hnext, Option.map_some, Option.some.injEq]
      split <;> simp_all

/-- The words behind a dot, where some tokens stand before. -/
theorem wordsAt_afterDot (before ts : List Token) (p : Token) :
    (ts.zipIdx (before.length + 1)).filterMap (fun (t, i) =>
      if t.kind = .word ∧ t.text = name ∧
          (before ++ p :: ts)[i - 1]?.map Token.kind = some .dot then
        some t.start
      else none) = Token.startsOf (p :: ts) name .afterDot := by
  induction ts generalizing before p with
  | nil => rfl
  | cons t ts ih =>
    have hrest := ih (before ++ [p]) t
    rw [List.length_append, List.append_assoc] at hrest
    have hprevious : (before ++ p :: t :: ts)[before.length + 1 - 1]? = some p := by simp
    rw [Token.startsOf_afterDot_cons, ← hrest, List.zipIdx_cons, List.filterMap_cons]
    simp only [hprevious, Option.map_some, Option.some.injEq]
    by_cases hfits : p.kind = .dot ∧ t.kind = .word ∧ t.text = name
    · rw [if_pos hfits, if_pos ⟨hfits.2.1, hfits.2.2, hfits.1⟩]
      rfl
    · rw [if_neg hfits, if_neg fun h => hfits ⟨h.2.2, h.1, h.2.1⟩]
      rfl

end

/-! ### Nothing fails -/

/-- What is found at the words with a text. -/
theorem reduceOption_wordsAt (ts : List Token) (name : String) (g : Nat → Option Nat) :
    ((wordsAt ts name).map g).reduceOption = ts.zipIdx.filterMap fun (t, i) =>
      if t.kind = .word ∧ t.text = name then g i else none := by
  show ((wordsAt ts name).map g).filterMap id = _
  rw [wordsAt, List.filterMap_map, List.filterMap_filterMap]
  refine List.filterMap_congr ?_
  rintro ⟨t, i⟩ -
  by_cases h : t.kind = .word ∧ t.text = name <;> simp [h]

/-- An empty name is not found among tokens that have characters. -/
theorem startsOf_empty {ts : List Token} (h : ∀ t ∈ ts, t.text ≠ "") (surrounding : Surrounding) :
    Token.startsOf ts "" surrounding = [] := by
  cases surrounding with
  | identifier =>
    rw [← startsOf_runs, List.filterMap_eq_nil_iff]
    intro run hrun
    cases run with
    | nil => rfl
    | cons t run =>
      have ht : t ∈ ts := by
        rw [← List.flatten_splitBy (fun a b : Token => a.isIdentPart == b.isIdentPart) ts]
        exact List.mem_flatten_of_mem hrun List.mem_cons_self
      refine if_neg fun hempty => h t ht (String.toList_injective ?_)
      have hnil := congrArg String.toList hempty.2
      rw [Token.textOf, String.toList_ofList, List.flatMap_cons] at hnil
      exact (List.append_eq_nil_iff.1 hnil).1
  | beforeDot =>
    refine List.filterMap_eq_nil_iff.2 ?_
    rintro ⟨t, u⟩ htu
    refine if_neg fun hempty => ?_
    exact h t (List.of_mem_zip htu).1 hempty.2.1
  | afterDot =>
    refine List.filterMap_eq_nil_iff.2 ?_
    rintro ⟨t, u⟩ htu
    refine if_neg fun hempty => ?_
    exact h u (List.mem_of_mem_tail (List.of_mem_zip htu).2) hempty.2.2

/-- A search by indices finds what the search does, and nothing fails. -/
theorem startsOf_eq {ts : List Token} (h : ∀ t ∈ ts, t.text ≠ "") (name : String)
    (surrounding : Surrounding) :
    startsOf ts name surrounding = .ok (Token.startsOf ts name surrounding) := by
  by_cases hname : name = ""
  · rw [hname, startsOf, if_pos rfl, startsOf_empty h]
  rw [startsOf, if_neg hname]
  cases surrounding with
  | identifier =>
    rw [← startsOf_runs]
    simp only [mapM_ok fun run hrun => startOfRun_eq (List.ne_nil_of_mem_splitBy hrun), bind,
      Except.bind]
    exact congrArg _ (List.filterMap_map (f := startIfRun name) (g := id))
  | beforeDot =>
    simp only [mapM_ok fun i hi => startBeforeDot_eq (exists_of_mem_wordsAt hi), bind, Except.bind,
      reduceOption_wordsAt, ← wordsAt_beforeDot [] ts]
    refine congrArg _ (List.filterMap_congr ?_)
    rintro ⟨t, i⟩ hti
    rw [List.mk_mem_zipIdx_iff_getElem?.1 hti]
    simp [ite_and]
  | afterDot =>
    simp only [mapM_ok fun i hi => startAfterDot_eq (exists_of_mem_wordsAt hi), bind, Except.bind,
      reduceOption_wordsAt]
    cases ts with
    | nil => rfl
    | cons p ts =>
      rw [← wordsAt_afterDot [] ts p, List.zipIdx_cons, List.filterMap_cons_none]
      · refine congrArg _ (List.filterMap_congr ?_)
        rintro ⟨t, i⟩ hti
        obtain ⟨hpos, hget⟩ := List.mk_mem_zipIdx_iff_le_and_getElem?_sub.1 hti
        obtain ⟨j, rfl⟩ : ∃ j, i = j + 1 := ⟨i - 1, by omega⟩
        have hi : (p :: ts)[j + 1]? = some t := by simpa using hget
        rw [hi]
        simp [ite_and]
      · simp

end LabelFlow.Guarded
