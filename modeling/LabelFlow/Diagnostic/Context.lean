/-!
# Context of a diagnostic

A `Context` maps keys to values, both free text. Its entries stand in ascending order of their keys,
each key once, so that equal contexts are equal values. `ofList` lets a later entry replace an
earlier one with the same key.
-/

set_option autoImplicit false

namespace LabelFlow

/-- Keys with their values, in ascending order of the keys. -/
structure Context where
  entries : List (String × String)
  ascending : entries.Pairwise fun a b => a.1 < b.1
deriving DecidableEq

namespace Context

/-- No entries. -/
def empty : Context := ⟨[], .nil⟩

/-- The value of a key. -/
def find? (c : Context) (key : String) : Option String := c.entries.lookup key

/-- Puts an entry at its place, over one with the same key. -/
def insertEntry (key value : String) : List (String × String) → List (String × String)
  | [] => [(key, value)]
  | e :: es =>
    if key < e.1 then (key, value) :: e :: es
    else if key = e.1 then (key, value) :: es
    else e :: insertEntry key value es

theorem mem_insertEntry {key value : String} {e : String × String} :
    ∀ {es : List (String × String)}, e ∈ insertEntry key value es → e = (key, value) ∨ e ∈ es
  | [], h => by simpa [insertEntry] using h
  | x :: xs, h => by
    unfold insertEntry at h
    split at h
    · simpa using h
    · split at h
      · rcases List.mem_cons.1 h with h | h
        · exact .inl h
        · exact .inr (.tail _ h)
      · rcases List.mem_cons.1 h with h | h
        · exact .inr (h ▸ .head _)
        · rcases mem_insertEntry h with h | h
          · exact .inl h
          · exact .inr (.tail _ h)

theorem insertEntry_ascending (key value : String) :
    ∀ {es : List (String × String)}, (es.Pairwise fun a b => a.1 < b.1) →
      (insertEntry key value es).Pairwise fun a b => a.1 < b.1
  | [], _ => by simp [insertEntry]
  | x :: xs, h => by
    obtain ⟨hx, hxs⟩ := List.pairwise_cons.1 h
    unfold insertEntry
    split
    · rename_i hlt
      refine List.pairwise_cons.2 ⟨fun e he => ?_, h⟩
      rcases List.mem_cons.1 he with rfl | he
      · exact hlt
      · exact String.lt_trans hlt (hx e he)
    · rename_i hlt
      split
      · rename_i heq
        exact List.pairwise_cons.2 ⟨fun e he => heq ▸ hx e he, hxs⟩
      · rename_i hne
        refine List.pairwise_cons.2 ⟨fun e he => ?_, insertEntry_ascending key value hxs⟩
        rcases mem_insertEntry he with rfl | he
        · exact Decidable.byContradiction fun hge =>
            hne (String.le_antisymm (String.not_lt.1 hge) (String.not_lt.1 hlt))
        · exact hx e he

/-- Sets the value of a key. -/
def insert (c : Context) (key value : String) : Context :=
  ⟨insertEntry key value c.entries, insertEntry_ascending key value c.ascending⟩

/-- The entries of a list; the last one of a key counts. -/
def ofList (entries : List (String × String)) : Context :=
  entries.foldl (fun c e => c.insert e.1 e.2) empty

/-! ## Values of keys -/

theorem lookup_cons_eq (e : String × String) (es : List (String × String)) (k : String) :
    (e :: es).lookup k = if k = e.1 then some e.2 else es.lookup k := by
  rw [List.lookup_cons]
  by_cases h : k = e.1
  · simp [h]
  · have hb : (k == e.1) = false := beq_eq_false_iff_ne.2 h
    simp [hb, h]

theorem lookup_insertEntry (key value : String) (es : List (String × String)) (k : String) :
    (insertEntry key value es).lookup k = if k = key then some value else es.lookup k := by
  induction es with
  | nil => exact lookup_cons_eq (key, value) [] k
  | cons e es ih =>
    unfold insertEntry
    split
    · exact lookup_cons_eq (key, value) (e :: es) k
    · split
      · rename_i he
        rw [lookup_cons_eq, lookup_cons_eq, he]
        by_cases h : k = e.1 <;> simp [h]
      · rename_i he
        rw [lookup_cons_eq, lookup_cons_eq, ih]
        by_cases h : k = e.1
        · simp [h, Ne.symm he]
        · simp [h]

/-- A context has the value that was set last under a key. -/
theorem find?_insert (c : Context) (key value k : String) :
    (c.insert key value).find? k = if k = key then some value else c.find? k :=
  lookup_insertEntry key value c.entries k

end Context

end LabelFlow
