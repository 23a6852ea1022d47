import LabelFlow.Proofs.SavedCatalogs

/-!
# The first violation of a catalog

Label types make a catalog exactly if they are well formed, and otherwise the check reports what is
wrong with the first faulty type (`catalog_check_exact`). A type is judged by itself and by the
types before it (`LabelType.Faulty`); of several faults it is the empty name, then the repeated
name, then the first repeated value that is reported (`LabelType.Violates`), and a fault of an
earlier type goes before every fault of a later one (`Catalog.FirstFault`). The check keeps no more
of the types it has passed than their number and names, which is all that the later ones are judged
by (`Catalog.violationFrom_eq_some_iff`).
-/

set_option autoImplicit false

namespace LabelFlow

namespace LabelType

/-- A type that the types before it, or its own name or values, keep from a catalog. -/
def Faulty (before : List LabelType) (t : LabelType) : Prop :=
  t.name = "" ∨ t.name ∈ before.map name ∨ ¬ t.texts.Nodup

/-- What is reported of a faulty type: the first one of its faults. -/
inductive Violates (before : List LabelType) (t : LabelType) : CatalogError → Prop
  | emptyName (unnamed : t.name = "") : Violates before t (.emptyName before.length)
  | duplicateType (named : t.name ≠ "") (known : t.name ∈ before.map name) :
      Violates before t (.duplicateType t.name)
  | duplicateValue {value : String} (named : t.name ≠ "") (fresh : t.name ∉ before.map name)
      (front back : List String) (texts : t.texts = front ++ value :: back)
      (repeats : value ∈ front) (first : front.Nodup) :
      Violates before t (.duplicateValue t.name value)

end LabelType

namespace Catalog

/-- The type `t` behind `earlier` is the first faulty one of some types, before which others have
`passed`. -/
structure FirstFault (passed types earlier : List LabelType) (t : LabelType) : Prop where
  stands : ∃ later, types = earlier ++ t :: later
  faulty : t.Faulty (passed ++ earlier)
  first : ∀ a u b, earlier = a ++ u :: b → ¬ u.Faulty (passed ++ a)

/-! ## Repeated values -/

/-- The first repeated text stands behind texts that repeat nothing. -/
theorem firstRepeat_eq_some_iff {seen xs : List String} {value : String} :
    firstRepeat seen xs = some value ↔ ∃ front back, xs = front ++ value :: back ∧
      (value ∈ seen ∨ value ∈ front) ∧ front.Nodup ∧ ∀ x ∈ front, x ∉ seen := by
  induction xs generalizing seen with
  | nil => simp [firstRepeat]
  | cons x xs ih =>
    by_cases hx : x ∈ seen
    · rw [firstRepeat, if_pos hx]
      constructor
      · intro h
        cases h
        exact ⟨[], xs, rfl, .inl hx, .nil, fun _ hmem => by cases hmem⟩
      · rintro ⟨front, back, hxs, -, -, hfresh⟩
        cases front with
        | nil => rw [(List.cons.inj hxs).1]
        | cons y front =>
          obtain ⟨rfl, -⟩ := List.cons.inj hxs
          exact absurd hx (hfresh x List.mem_cons_self)
    · rw [firstRepeat, if_neg hx, ih]
      constructor
      · rintro ⟨front, back, hxs, hrep, hnodup, hfresh⟩
        refine ⟨x :: front, back, by rw [hxs]; rfl, ?_, ?_, ?_⟩
        · simp only [List.mem_cons] at hrep ⊢
          tauto
        · exact List.nodup_cons.2 ⟨fun hmem => hfresh x hmem List.mem_cons_self, hnodup⟩
        · exact List.forall_mem_cons.2 ⟨hx, fun y hy hs => hfresh y hy (List.mem_cons_of_mem x hs)⟩
      · rintro ⟨front, back, hxs, hrep, hnodup, hfresh⟩
        cases front with
        | nil =>
          obtain ⟨rfl, -⟩ := List.cons.inj hxs
          exact absurd hrep (by simp [hx])
        | cons y front =>
          obtain ⟨rfl, rfl⟩ := List.cons.inj hxs
          obtain ⟨hne, hnodup⟩ := List.nodup_cons.1 hnodup
          refine ⟨front, back, rfl, ?_, hnodup, fun y hy => ?_⟩
          · simp only [List.mem_cons] at hrep ⊢
            tauto
          · rw [List.mem_cons, not_or]
            exact ⟨fun heq => hne (heq ▸ hy), hfresh y (List.mem_cons_of_mem _ hy)⟩

/-! ## One type -/

variable {passed types earlier : List LabelType} {t u : LabelType} {e : CatalogError}

/-- Of every faulty type something is reported. -/
theorem exists_violates (h : t.Faulty passed) : ∃ e, t.Violates passed e := by
  by_cases hname : t.name = ""
  · exact ⟨_, .emptyName hname⟩
  by_cases hknown : t.name ∈ passed.map LabelType.name
  · exact ⟨_, .duplicateType hname hknown⟩
  cases hrep : firstRepeat [] t.texts with
  | none =>
    rcases h with h | h | h
    · exact absurd h hname
    · exact absurd h hknown
    · exact absurd (firstRepeat_eq_none hrep).1 h
  | some value =>
    obtain ⟨front, back, htexts, hmem, hfirst, -⟩ := firstRepeat_eq_some_iff.1 hrep
    exact ⟨_, .duplicateValue hname hknown front back htexts (by simpa using hmem) hfirst⟩

section
variable {seen : List String} (hseen : ∀ name, name ∈ seen ↔ name ∈ passed.map LabelType.name)
include hseen

/-- The check stops at a faulty type and reports its first fault. -/
theorem violationFrom_of_violates (h : t.Violates passed e) :
    violationFrom passed.length seen (t :: types) = some e := by
  cases h with
  | emptyName hname => rw [violationFrom, if_pos hname]
  | duplicateType hname hknown => rw [violationFrom, if_neg hname, if_pos ((hseen _).2 hknown)]
  | duplicateValue hname hfresh front back htexts hmem hfirst =>
    have hrep := firstRepeat_eq_some_iff.2
      ⟨front, back, htexts, .inr hmem, hfirst, fun _ _ => List.not_mem_nil⟩
    rw [violationFrom, if_neg hname, if_neg (mt (hseen _).1 hfresh), hrep]

/-- The check goes on behind a type without faults. -/
theorem violationFrom_of_not_faulty (h : ¬ t.Faulty passed) :
    violationFrom passed.length seen (t :: types) =
      violationFrom (passed ++ [t]).length (t.name :: seen) types := by
  obtain ⟨hname, hfresh, htexts⟩ : t.name ≠ "" ∧ t.name ∉ passed.map LabelType.name ∧
      t.texts.Nodup := by simpa [LabelType.Faulty] using h
  rw [violationFrom, if_neg hname, if_neg (mt (hseen _).1 hfresh),
    firstRepeat_of_nodup htexts fun _ _ => List.not_mem_nil, List.length_append]
  rfl

end

/-! ## All types -/

namespace FirstFault

theorem cons_of_faulty (h : t.Faulty passed) :
    FirstFault passed (t :: types) earlier u ↔ earlier = [] ∧ u = t := by
  refine ⟨fun ⟨⟨later, hstands⟩, _, hfirst⟩ => ?_, ?_⟩
  · cases earlier with
    | nil => exact ⟨rfl, (List.cons.inj hstands).1.symm⟩
    | cons v earlier =>
      obtain ⟨rfl, -⟩ := List.cons.inj hstands
      refine absurd ?_ (hfirst [] t earlier rfl)
      rwa [List.append_nil]
  · rintro ⟨rfl, rfl⟩
    exact ⟨⟨types, rfl⟩, by rwa [List.append_nil], by simp⟩

theorem cons_of_not_faulty (h : ¬ t.Faulty passed) : FirstFault passed (t :: types) earlier u ↔
    ∃ rest, earlier = t :: rest ∧ FirstFault (passed ++ [t]) types rest u := by
  refine ⟨fun ⟨⟨later, hstands⟩, hfaulty, hfirst⟩ => ?_, ?_⟩
  · cases earlier with
    | nil =>
      obtain ⟨rfl, -⟩ := List.cons.inj hstands
      rw [List.append_nil] at hfaulty
      exact absurd hfaulty h
    | cons v earlier =>
      obtain ⟨rfl, rfl⟩ := List.cons.inj hstands
      refine ⟨earlier, rfl, ⟨later, rfl⟩, ?_, fun a v b hab => ?_⟩
      · rwa [List.append_assoc]
      · rw [List.append_assoc]
        exact hfirst (t :: a) v b (by rw [hab]; rfl)
  · rintro ⟨rest, rfl, ⟨later, rfl⟩, hfaulty, hfirst⟩
    rw [List.append_assoc] at hfaulty
    refine ⟨⟨later, rfl⟩, hfaulty, fun a v b hab => ?_⟩
    cases a with
    | nil =>
      rw [← (List.cons.inj hab).1, List.append_nil]
      exact h
    | cons w a =>
      obtain ⟨rfl, htail⟩ := List.cons.inj hab
      have hnot := hfirst a v b htail
      rwa [List.append_assoc] at hnot

end FirstFault

/-- What is reported is the fault of the first faulty type. -/
theorem violationFrom_eq_some_iff {seen : List String}
    (hseen : ∀ name, name ∈ seen ↔ name ∈ passed.map LabelType.name) :
    violationFrom passed.length seen types = some e ↔
      ∃ earlier t, FirstFault passed types earlier t ∧ t.Violates (passed ++ earlier) e := by
  induction types generalizing passed seen with
  | nil =>
    refine ⟨nofun, fun ⟨earlier, t, ⟨⟨later, hstands⟩, _, _⟩, _⟩ => ?_⟩
    exact absurd hstands (by simp)
  | cons t types ih =>
    by_cases hfaulty : t.Faulty passed
    · obtain ⟨e', he'⟩ := exists_violates hfaulty
      simp only [FirstFault.cons_of_faulty hfaulty]
      refine ⟨fun h => ⟨[], t, ⟨rfl, rfl⟩, ?_⟩, fun ⟨_, _, ⟨rfl, rfl⟩, hviolates⟩ => ?_⟩
      · obtain rfl := Option.some.inj (h.symm.trans (violationFrom_of_violates hseen he'))
        rwa [List.append_nil]
      · rw [List.append_nil] at hviolates
        exact violationFrom_of_violates hseen hviolates
    · have hseen' : ∀ name, name ∈ t.name :: seen ↔ name ∈ (passed ++ [t]).map LabelType.name := by
        intro name
        rw [List.mem_cons, hseen, List.map_append, List.mem_append, or_comm]
        simp
      rw [violationFrom_of_not_faulty hseen hfaulty, ih hseen']
      simp only [FirstFault.cons_of_not_faulty hfaulty]
      constructor
      · rintro ⟨rest, u, hfirst, hviolates⟩
        rw [List.append_assoc] at hviolates
        exact ⟨t :: rest, u, ⟨rest, rfl, hfirst⟩, hviolates⟩
      · rintro ⟨_, u, ⟨rest, rfl, hfirst⟩, hviolates⟩
        refine ⟨rest, u, hfirst, ?_⟩
        rwa [List.append_assoc]

/-- An error is the first violation. -/
theorem ofTypes_eq_error_iff : ofTypes types = .error e ↔ violation? types = some e := by
  unfold ofTypes
  split
  · rename_i e' he'
    rw [he', Except.error.injEq, Option.some.injEq]
  · rename_i hnone
    refine ⟨nofun, fun h => ?_⟩
    rw [hnone] at h
    cases h

/-- The check accepts exactly the label types that are well formed, and keeps them as they are; of
others it reports the first fault of the first faulty type. In what it accepts every type is found
by its name, and nothing by any other text. -/
theorem catalog_check_exact (types : List LabelType) :
    (WellFormed types ↔ ∃ c, ofTypes types = .ok c ∧ c.types = types) ∧
    (∀ e, ofTypes types = .error e ↔
      ∃ earlier t, FirstFault [] types earlier t ∧ t.Violates earlier e) ∧
    ∀ c, ofTypes types = .ok c → c.types = types ∧ ∀ name,
      (∀ t ∈ types, t.name = name → c.find? name = some t) ∧
      ((∀ t ∈ types, t.name ≠ name) → c.find? name = none) := by
  refine ⟨⟨fun h => ⟨⟨types, h⟩, ofTypes_types ⟨types, h⟩, rfl⟩, ?_⟩, fun e => ?_, fun c h => ?_⟩
  · rintro ⟨c, -, rfl⟩
    exact c.wellFormed
  · rw [ofTypes_eq_error_iff]
    exact @violationFrom_eq_some_iff [] types e [] fun _ => Iff.rfl
  · obtain rfl := types_of_ofTypes h
    refine ⟨rfl, fun name => ⟨fun t ht hname => find?_eq_some_iff.2 ⟨ht, hname⟩, fun hno => ?_⟩⟩
    rw [find?_eq_none_iff, names, List.mem_map]
    rintro ⟨t, ht, hname⟩
    exact hno t ht hname

/-- Types of which the second repeats two values and the third a name, and lookups in a catalog of
the first two with the values once. -/
theorem catalog_check_exact_ordered :
    (∃ earlier t, FirstFault [] [.ofTexts "A" ["x"], .ofTexts "B" ["y", "z", "z", "y"],
        .ofTexts "A" []] earlier t ∧ t.Violates earlier (.duplicateValue "B" "z")) ∧
    ∃ c, ofTypes [.ofTexts "A" ["x"], .ofTexts "B" ["y", "z"]] = .ok c ∧
      c.find? "B" = some (.ofTexts "B" ["y", "z"]) ∧ c.find? "b" = none := by
  refine ⟨((catalog_check_exact _).2.1 _).1 rfl, ?_⟩
  have hwell : WellFormed [.ofTexts "A" ["x"], .ofTexts "B" ["y", "z"]] :=
    ⟨by decide, by decide, by decide⟩
  obtain ⟨c, hc, -⟩ := (catalog_check_exact _).1.1 hwell
  obtain ⟨-, hfind⟩ := (catalog_check_exact _).2.2 c hc
  exact ⟨c, hc, (hfind "B").1 _ (by decide) rfl, (hfind "b").2 (by decide)⟩

end Catalog

end LabelFlow
