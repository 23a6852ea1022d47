import Mathlib.Data.List.Perm.Basic
import LabelFlow.Proofs.JsonLibrary

/-!
# Records

What a library that conforms makes of a record, whose fields are found by their names among any
members with other names (`Library.Conforms.fields_record`), and of what was saved for a field
(`Library.Conforms.list?_map`, `optional?_map`). `Alike` relates values that differ at most in the
order of the members of objects; such records have alike values under each key (`Alike.lookup`).
-/

set_option autoImplicit false

namespace LabelFlow.Json

variable {α : Type} {read : Json → Option α} {save : α → Json}

/-! ## Looking up -/

section
variable {members : List (String × Json)} {key : String} {v : Json}

theorem mem_of_lookup (h : members.lookup key = some v) : (key, v) ∈ members := by
  obtain ⟨before, after, rfl, -⟩ := List.lookup_eq_some_iff.1 h
  exact List.mem_append_right before (.head after)

theorem ne_of_lookup (h : members.lookup key = none) : ∀ m ∈ members, m.1 ≠ key := by
  intro m hm hkey
  have hne := List.lookup_eq_none_iff.1 h m hm
  simp [hkey] at hne

/-- Where no key is given twice, there is one member of a key at most. -/
theorem length_filter_le_one (h : (members.map Prod.fst).Nodup) (key : String) :
    (members.filter fun m => m.1 == key).length ≤ 1 := by
  have hcount := List.nodup_iff_count.1 h key
  rwa [List.count_eq_countP, List.countP_map, List.countP_eq_length_filter] at hcount

/-- A member among those with other names is the only one of its name. -/
theorem filter_member {before after : List (String × Json)} (h : ∀ m ∈ before ++ after, m.1 ≠ key) :
    (before ++ (key, v) :: after).filter (fun m => m.1 == key) = [(key, v)] := by
  have hdrop : ∀ ms : List (String × Json), (∀ m ∈ ms, m.1 ≠ key) →
      ms.filter (fun m => m.1 == key) = [] := by
    intro ms hms
    exact List.filter_eq_nil_iff.2 fun m hm => by simpa using hms m hm
  rw [List.filter_append, List.filter_cons_of_pos (by simp),
    hdrop before fun m hm => h m (List.mem_append_left after hm),
    hdrop after fun m hm => h m (List.mem_append_right before hm)]
  rfl

end

/-! ## Decoding -/

namespace Library.Conforms

variable {j : Library} (hj : j.Conforms) {fs : List Field}
include hj

/-- A record that gives no key twice is decoded by looking its fields up. -/
theorem fields_record {members : List (String × Json)} (hkeys : (members.map Prod.fst).Nodup)
    (hthere : ∀ f ∈ fs, f.omission = .never → f.name ∈ members.map Prod.fst) :
    j.fields fs (.record members) = some (fs.map fun f => members.lookup f.name) :=
  hj.fields (fun f _ => length_filter_le_one hkeys f.name) hthere

/-- A record of one field is decoded as what stands under its name, among any other members. -/
theorem fields_member {before after : List (String × Json)} {f : Field} {v : Json}
    (h : ∀ m ∈ before ++ after, m.1 ≠ f.name) :
    j.fields [f] (.record (before ++ (f.name, v) :: after)) = some [some v] := by
  have hfilter := filter_member (v := v) h
  have honce : ((before ++ (f.name, v) :: after).filter fun m => m.1 == f.name).length ≤ 1 := by
    rw [hfilter]
    exact Nat.le_refl 1
  have hthere : f.name ∈ (before ++ (f.name, v) :: after).map Prod.fst := by
    simp
  rw [hj.fields (List.forall_mem_singleton.2 honce) (List.forall_mem_singleton.2 fun _ => hthere),
    List.map_singleton, lookup_eq_head?, hfilter]
  rfl

/-- A list is read back, if its elements are. -/
theorem list?_map {values : List α} (h : ∀ a ∈ values, read (save a) = some a) :
    j.list? read (.array (values.map save)) = some values := by
  rw [list?, hj.items, Option.bind_eq_bind, Option.bind_some, mapM_map_eq_some h]

end Library.Conforms

/-- A value that may be absent is read back, if it is not saved as null. -/
theorem optional?_map {value : Option α} (hnull : ∀ a, save a ≠ .null)
    (h : ∀ a ∈ value, read (save a) = some a) :
    optional? read (value.map save) = some value := by
  cases value with
  | none => rfl
  | some a => rw [Option.map_some, optional?.eq_3 _ _ (hnull a), h a rfl]; rfl

/-! ## The order of members -/

/-- The same value, whatever the order of the members of objects: they have the same keys and alike
values under each. -/
inductive Alike : Json → Json → Prop
  | refl (v : Json) : Alike v v
  | array {vs ws : List Json} (h : List.Forall₂ Alike vs ws) : Alike (.array vs) (.array ws)
  | object {ms ns : List (Option String × Json)}
    (hkeys : (ms.map Prod.fst).Perm (ns.map Prod.fst))
    (hvalues : ∀ m ∈ ms, ∀ n ∈ ns, m.1 = n.1 → Alike m.2 n.2) : Alike (.object ms) (.object ns)

theorem Alike.text_inj {s t : String} (h : Alike (.text s) (.text t)) : s = t := by
  cases h
  rfl

theorem Alike.natural_inj {m n : Nat} (h : Alike (.natural m) (.natural n)) : m = n := by
  generalize hm : natural m = v at h
  generalize hn : natural n = w at h
  cases h with
  | refl v =>
    have hrepr : m.repr = n.repr := Json.number.inj (hm.trans hn.symm)
    rw [← ofDigitChars_repr m, hrepr, ofDigitChars_repr]
  | array h => cases hm
  | object hkeys hvalues => cases hm

/-- Records that are alike are the same, or they have the same keys and alike values under each. -/
theorem Alike.record_cases {ms ns : List (String × Json)} (h : Alike (record ms) (record ns)) :
    ms = ns ∨ (ms.map Prod.fst).Perm (ns.map Prod.fst) ∧
      ∀ m ∈ ms, ∀ n ∈ ns, m.1 = n.1 → Alike m.2 n.2 := by
  generalize hm : record ms = v at h
  generalize hn : record ns = w at h
  cases h with
  | refl v =>
    have hread := congrArg textKeys (Json.object.inj (hm.trans hn.symm))
    rw [textKeys_map, textKeys_map] at hread
    exact .inl (Option.some.inj hread)
  | array h => cases hm
  | object hkeys hvalues =>
    cases hm
    cases hn
    refine .inr ⟨?_, fun m hm n hn hkey => ?_⟩
    · refine (List.map_perm_map_iff fun _ _ => Option.some.inj).1 ?_
      simpa [Function.comp_def] using hkeys
    · exact hvalues _ (List.mem_map_of_mem hm) _ (List.mem_map_of_mem hn) (congrArg some hkey)

section
variable {ms ns : List (String × Json)}

theorem Alike.member_right (h : Alike (record ms) (record ns)) {m : String × Json} (hm : m ∈ ms) :
    ∃ n ∈ ns, n.1 = m.1 ∧ Alike m.2 n.2 := by
  rcases h.record_cases with rfl | ⟨hkeys, hvalues⟩
  · exact ⟨m, hm, rfl, .refl m.2⟩
  · obtain ⟨n, hn, hkey⟩ := List.mem_map.1 (hkeys.mem_iff.1 (List.mem_map_of_mem hm))
    exact ⟨n, hn, hkey, hvalues m hm n hn hkey.symm⟩

theorem Alike.member_left (h : Alike (record ms) (record ns)) {n : String × Json} (hn : n ∈ ns) :
    ∃ m ∈ ms, m.1 = n.1 ∧ Alike m.2 n.2 := by
  rcases h.record_cases with rfl | ⟨hkeys, hvalues⟩
  · exact ⟨n, hn, rfl, .refl n.2⟩
  · obtain ⟨m, hm, hkey⟩ := List.mem_map.1 (hkeys.mem_iff.2 (List.mem_map_of_mem hn))
    exact ⟨m, hm, hkey, hvalues m hm n hn hkey⟩

/-- Records that are alike have alike values under each key. -/
theorem Alike.lookup (h : Alike (record ms) (record ns)) (key : String) :
    Option.Rel Alike (ms.lookup key) (ns.lookup key) := by
  cases hm : ms.lookup key with
  | none =>
    cases hn : ns.lookup key with
    | none => exact .none
    | some w =>
      obtain ⟨m, hmem, hkey, -⟩ := h.member_left (mem_of_lookup hn)
      exact absurd hkey (ne_of_lookup hm m hmem)
  | some v =>
    cases hn : ns.lookup key with
    | none =>
      obtain ⟨n, hmem, hkey, -⟩ := h.member_right (mem_of_lookup hm)
      exact absurd hkey (ne_of_lookup hn n hmem)
    | some w =>
      rcases h.record_cases with rfl | ⟨-, hvalues⟩
      · obtain rfl : v = w := Option.some.inj (hm.symm.trans hn)
        exact .some (.refl v)
      · exact .some (hvalues _ (mem_of_lookup hm) _ (mem_of_lookup hn) rfl)

end

/-- A value that may be absent, if different ones are saved as values that are not alike. -/
theorem Alike.optional_inj {x y : Option α} (hinj : ∀ {a b : α}, Alike (save a) (save b) → a = b)
    (h : Option.Rel Alike (x.map save) (y.map save)) : x = y := by
  cases x <;> cases y <;> cases h
  · rfl
  · rename_i hab
    exact congrArg some (hinj hab)

end LabelFlow.Json
