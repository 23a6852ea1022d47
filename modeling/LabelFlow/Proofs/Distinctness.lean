import LabelFlow.Proofs.Findings
import LabelFlow.Proofs.Grammar
import LabelFlow.Proofs.Repeats

/-!
# Findings are distinct

A name is found at ascending offsets (`Token.startsOf_ascending`), so the check of a line finds
nothing twice (`Validator.nodup_analyze`). A diagnostic tells what was found and where, so different
findings of a line have different diagnostics (`Finding.Marks.diagnostic_inj`).
-/

set_option autoImplicit false

namespace LabelFlow

/-! ## Places -/

section
variable {α β : Type}

theorem zip_sublist (xs : List α) (ys : List β) :
    ((xs.zip ys).map Prod.fst).Sublist xs ∧ ((xs.zip ys).map Prod.snd).Sublist ys := by
  induction xs generalizing ys with
  | nil => simp
  | cons x xs ih =>
    cases ys with
    | nil => simp
    | cons y ys => exact ⟨(ih ys).1.cons_cons x, (ih ys).2.cons_cons y⟩

theorem filterMap_sublist_map {f : α → Option β} {g : α → β} (h : ∀ x, ∀ y ∈ f x, y = g x)
    (xs : List α) : (xs.filterMap f).Sublist (xs.map g) := by
  induction xs with
  | nil => exact List.Sublist.slnil
  | cons x xs ih =>
    rw [List.map_cons]
    cases hx : f x with
    | none =>
      rw [List.filterMap_cons_none hx]
      exact ih.cons _
    | some y =>
      rw [List.filterMap_cons_some hx, h x y hx]
      exact ih.cons_cons _

end

namespace Token

/-- The tokens of a text begin at ascending offsets. -/
theorem starts_ofText (start : Nat) (cs : List Char) :
    ((ofText start cs).map Token.start).Pairwise (· < ·) := by
  refine List.pairwise_map.2 ((inOrder_ofText start cs).imp_of_mem fun {t u} ht _ h => ?_)
  exact Nat.lt_of_lt_of_le (bounds_of_mem_ofText ht).2.1 h

theorem inside_sublist (tokens : List Token) (s : Span) : (inside tokens s).Sublist tokens :=
  (List.takeWhile_sublist _).trans (List.dropWhile_sublist _)

/-- A stretch between separators begins with a token of its own. -/
theorem startIfNamed_sublist (p : Token → Bool) (name : String) (tokens : List Token) :
    ((Pieces.cut p tokens).stretches.filterMap (startIfNamed name)).Sublist
      (tokens.map Token.start) := by
  have hstart : ∀ {t : Token} {ts : List Token} {o : Nat},
      startIfNamed name (t :: ts) = some o → o = t.start := by
    intro t ts o h
    simp only [startIfNamed] at h
    split at h
    · exact (Option.some.inj h).symm
    · cases h
  induction tokens with
  | nil => exact List.Sublist.slnil
  | cons t ts ih =>
    rw [List.map_cons]
    cases hp : p t with
    | true =>
      rw [Pieces.cut_separator hp]
      exact ih.cons _
    | false =>
      have hmore : (((Pieces.cut p ts).tail.map Prod.snd).filterMap (startIfNamed name)).Sublist
          (ts.map Token.start) := ((List.sublist_cons_self _ _).filterMap _).trans ih
      rw [Pieces.cut_other hp, Pieces.stretches, List.filterMap_cons]
      split
      · exact hmore.cons _
      · rename_i o ho
        rw [hstart ho]
        exact hmore.cons_cons _

/-- A name is found at the offsets of some of the tokens, in their order. -/
theorem startsOf_sublist (tokens : List Token) (name : String) (surrounding : Surrounding) :
    (startsOf tokens name surrounding).Sublist (tokens.map Token.start) := by
  obtain ⟨hfst, hsnd⟩ := zip_sublist tokens tokens.tail
  cases surrounding with
  | identifier => exact startIfNamed_sublist _ name tokens
  | beforeDot =>
    refine (filterMap_sublist_map (g := Token.start ∘ Prod.fst) (fun e o ho => ?_) _).trans ?_
    · exact (Option.some.inj (Option.ite_none_right_eq_some.1 ho).2).symm
    · rw [← List.map_map]
      exact hfst.map Token.start
  | afterDot =>
    refine (filterMap_sublist_map (g := Token.start ∘ Prod.snd) (fun e o ho => ?_) _).trans ?_
    · exact (Option.some.inj (Option.ite_none_right_eq_some.1 ho).2).symm
    · rw [← List.map_map]
      exact (hsnd.trans (List.tail_sublist _)).map Token.start

/-- A name is found at ascending offsets in a region of a line. -/
theorem startsOf_ascending (line : String) (s : Span) (name : String) (surrounding : Surrounding) :
    (startsOf (inside (ofLine line) s) name surrounding).Pairwise (· < ·) := by
  have hstarts := starts_ofText 0 line.toList
  rw [← ofLine_eq] at hstarts
  exact hstarts.sublist ((startsOf_sublist _ _ _).trans ((inside_sublist _ s).map Token.start))

theorem nodup_placesOf (line : String) (s : Span) (name : String) (surrounding : Surrounding) :
    (placesOf (inside (ofLine line) s) name surrounding).Nodup := by
  refine List.Nodup.map (fun o p h => congrArg Span.start h) ?_
  exact (startsOf_ascending line s name surrounding).imp Nat.ne_of_lt

end Token

namespace Layout

/-- The names of a list begin at ascending offsets, none before the list does. -/
theorem starts_nameList (offset : Nat) (first : Item) (more : List Item) :
    (∀ n ∈ (nameList offset first more).names, offset ≤ n.span.start) ∧
      (nameList offset first more).names.Pairwise fun n m => n.span.start < m.span.start := by
  have hitem : ∀ (offset : Nat) (p : Item), offset ≤ (p.name offset).span.start ∧
      (p.name offset).span.start ≤ offset + Text.width (p.chars id) := by
    intro offset p
    have hbounds := NameList.bounds_item p offset
    refine ⟨hbounds.1, Nat.le_trans ?_ hbounds.2⟩
    unfold Item.name
    split
    · exact Nat.le_refl _
    · exact Nat.le_add_right _ _
  induction more generalizing offset first with
  | nil =>
    refine ⟨fun n hn => ?_, List.pairwise_singleton _ _⟩
    obtain rfl := List.mem_singleton.1 hn
    exact (hitem offset first).1
  | cons p more ih =>
    obtain ⟨hstart, hstop⟩ := hitem offset first
    obtain ⟨hmore, hascending⟩ := ih (offset + Text.width (first.chars id) + 1) p
    rw [names_nameList_cons]
    refine ⟨List.forall_mem_cons.2 ⟨hstart, fun n hn => ?_⟩,
      List.pairwise_cons.2 ⟨fun n hn => ?_, hascending⟩⟩ <;>
      have := hmore n hn
    · omega
    · omega

/-- A name that stands in a list more than once has more than one place there. -/
theorem places_repeated {minLength : Nat} {first : Item} {more : List Item} {line : String}
    (h : ∀ p ∈ first :: more, p.Valid (InputName minLength))
    (hline : line.toList = forwarding first more) {name : String}
    (hname : name ∈ (nameList 12 first more).repeated) :
    1 < (Token.placesOf (Token.inside (Token.ofLine line) (nameList 12 first more).span) name
      .identifier).length := by
  have hcount := of_decide_eq_true (List.mem_filter.1 hname).2
  have hstarts : (((nameList 12 first more).names.filter fun n => n.text == name).map
      fun n => n.span.start).Nodup := by
    refine List.pairwise_map.2 (List.Pairwise.imp Nat.ne_of_lt ?_)
    exact (starts_nameList 12 first more).2.sublist List.filter_sublist
  have hfound : ((nameList 12 first more).names.filter fun n => n.text == name).map
      (fun n => n.span.start) ⊆ Token.startsOf (Token.inside (Token.ofLine line)
        (nameList 12 first more).span) name .identifier := by
    intro o ho
    obtain ⟨n, hn, rfl⟩ := List.mem_map.1 ho
    obtain ⟨hn, htext⟩ := List.mem_filter.1 hn
    rw [← beq_iff_eq.1 htext, inside_forwarding h hline]
    exact mem_startsOf_names h hn
  have hle := hstarts.length_le_of_subset hfound
  rw [List.length_map, ← List.countP_eq_length_filter] at hle
  rw [List.count_eq_countP, List.countP_map] at hcount
  rw [Token.placesOf, List.length_map]
  exact Nat.lt_of_lt_of_le hcount hle

end Layout

/-! ## Findings of a line -/

/-- Nothing is found twice in a Forwarding statement. -/
theorem Forwarding.nodup_analyze (line : String) (f : Forwarding) :
    (f.analyze (Token.ofLine line)).findings.Nodup := by
  have hcheck := f.checked_analyze (Token.ofLine line)
  generalize f.analyze (Token.ofLine line) = analysis at hcheck
  cases hcheck with
  | unnamed => exact List.nodup_singleton _
  | missing => exact List.nodup_singleton _
  | repeated =>
    refine nodup_flatMap_of_forall ((eraseDups_nodup _).filter _) (fun name _ => ?_) ?_
    · exact (Token.nodup_placesOf line _ name _).map fun s t h =>
        Option.some.inj (congrArg Finding.span h)
    · intro name other f hf hg
      obtain ⟨s, -, rfl⟩ := List.mem_map.1 hf
      obtain ⟨t, -, h⟩ := List.mem_map.1 hg
      exact (Problem.duplicateInput.inj (congrArg Finding.problem h)).symm
  | names =>
    refine List.Nodup.map (fun name other h => ?_) (eraseDups_nodup _)
    exact Problem.unknownInput.inj (congrArg Finding.problem h)

/-- A problem has no finding twice. -/
theorem Assignment.nodup_findings (line : String) (a : Assignment) (p : Problem) :
    (a.findings (Token.ofLine line) p).Nodup := by
  have hplaces : ∀ (name : String) (surrounding : Surrounding),
      ((Token.placesOf (Token.inside (Token.ofLine line) a.labelSpan) name surrounding).map
        fun s => Finding.mk p (some s)).Nodup := by
    intro name surrounding
    exact (Token.nodup_placesOf line _ name _).map fun s t h =>
      Option.some.inj (congrArg Finding.span h)
  unfold findings
  split
  · exact hplaces _ _
  · exact hplaces _ _
  · exact List.nodup_singleton _
  · exact List.nodup_singleton _

/-- Nothing is found twice in an Assignment statement. -/
theorem Assignment.nodup_analyze (catalog : Option Catalog) (line : String) (a : Assignment) :
    (a.analyze catalog (Token.ofLine line)).findings.Nodup := by
  have hcheck := a.checked_analyze catalog (Token.ofLine line)
  generalize a.analyze catalog (Token.ofLine line) = analysis at hcheck
  cases hcheck with
  | unbalanced => exact List.nodup_singleton _
  | blank => exact List.nodup_singleton _
  | fault => exact List.nodup_singleton _
  | labels =>
    refine nodup_flatMap_of_forall (eraseDups_nodup _) (fun p _ => a.nodup_findings line p) ?_
    intro p q f hf hg
    rw [← problem_of_mem_findings hf, problem_of_mem_findings hg]

/-- Nothing is found twice in a line. -/
theorem Validator.nodup_analyze (v : Validator) (line : String) :
    (v.analyze line).findings.Nodup := by
  have hcheck := v.checked_analyze line
  generalize v.analyze line = analysis at hcheck
  cases hcheck with
  | blank | comment => exact List.nodup_nil
  | unknown | noForwarding | noAssignment => exact List.nodup_singleton _
  | forwarding _ f => exact f.nodup_analyze line
  | assignment _ a => exact a.nodup_analyze v.catalog line

/-! ## Diagnostics of findings -/

/-- The columns of a span give it back. -/
theorem Span.Covers.eq_of_columns {s : Span} {line : String} {text : List Char}
    (h : s.Covers line.toList text) :
    s = ⟨Text.width (line.toList.take (s.columns line).1),
      Text.width (line.toList.take (s.columns line).2)⟩ := by
  obtain ⟨before, after, hl, rfl⟩ := h
  have hstart : Text.column line.toList (Text.width before) = before.length := by
    rw [hl, List.append_assoc, Text.column_append]
  have hstop : Text.column line.toList (Text.width before + Text.width text) =
      (before ++ text).length := by
    rw [hl, ← Text.width_append, Text.column_append]
  rw [columns, hstart, hstop, hl, List.take_left, ← Text.width_append, List.append_assoc,
    List.take_left]

theorem Code.ofId?_id (c : Code) : ofId? c.id = some c := by
  cases c <;> rfl

/-- Different codes have different identifiers. -/
theorem Code.id_inj {c d : Code} : c.id = d.id ↔ c = d := by
  refine ⟨fun h => ?_, congrArg id⟩
  have hc := ofId?_id c
  rw [h, ofId?_id] at hc
  exact (Option.some.inj hc).symm

/-- A problem is told by its code and its context. -/
theorem Problem.eq_of_context {p q : Problem} (hcode : p.code = q.code)
    (hcontext : p.context? = q.context?) : p = q := by
  have hkey : ∀ key, (p.context?.bind fun c => c.find? key) =
      q.context?.bind fun c => c.find? key := fun key => by rw [hcontext]
  cases p <;> cases q <;> cases hcode
  case duplicateInput.duplicateInput | unknownInput.unknownInput =>
    have h := hkey "input"
    simpa [context?, Context.ofList, Context.find?_insert] using h
  case unknownLabelType.unknownLabelType =>
    have h := hkey "labelType"
    simpa [context?, Context.ofList, Context.find?_insert] using h
  case unknownLabelValue.unknownLabelValue =>
    have htype := hkey "labelType"
    have hvalue := hkey "labelValue"
    simp [context?, Context.ofList, Context.find?_insert] at htype hvalue
    rw [htype, hvalue]
  -- all others are told by their codes alone
  all_goals rfl

/-- Findings in place have different diagnostics. -/
theorem Finding.Marks.diagnostic_inj {f g : Finding} {line : String} {number : Nat}
    (hf : f.Marks line.toList) (hg : g.Marks line.toList)
    (h : f.diagnostic number line = g.diagnostic number line) : f = g := by
  have hproblem : f.problem = g.problem :=
    Problem.eq_of_context (Code.id_inj.1 (congrArg Diagnostic.id h))
      (congrArg Diagnostic.context h)
  have hcolumns : f.columns line = g.columns line :=
    Prod.ext (Option.some.inj (congrArg Diagnostic.colStart h))
      (Option.some.inj (congrArg Diagnostic.colEnd h))
  obtain ⟨p, s⟩ := f
  obtain ⟨q, t⟩ := g
  obtain rfl : p = q := hproblem
  simp only [Marks] at hf hg
  split at hf
  · rename_i text hquoted
    simp only [hquoted] at hg
    obtain ⟨-, s, rfl, hs⟩ := hf
    obtain ⟨-, t, rfl, ht⟩ := hg
    rw [columns, columns] at hcolumns
    simp only at hcolumns
    rw [hs.eq_of_columns, ht.eq_of_columns, hcolumns]
  · rename_i hquoted
    simp only [hquoted] at hg
    rw [hf.2, hg.2]

end LabelFlow
