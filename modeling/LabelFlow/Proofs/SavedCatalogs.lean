import LabelFlow.Catalog.Saved
import LabelFlow.Proofs.Definitions
import LabelFlow.Proofs.JsonMembers
import LabelFlow.Proofs.JsonRecords

/-!
# Saving catalogs

A catalog is loaded from every text of the array that it is saved as, and from every diagram that
carries such a text, whatever library reads them (`saved_catalog_exact`). What is loaded is checked
again on the way; the check passes exactly the well-formed lists of label types
(`Catalog.ofTypes_types`), so it never refuses what was saved. A diagram that carries the text of an
array loads as the array does (`Catalog.ofDiagram_of_carries`).
-/

set_option autoImplicit false

namespace LabelFlow

open Json

variable {j : Json.Library}

/-! ## Values and types -/

theorem LabelValue.ofJson?_toJson (hj : j.Conforms) (v : LabelValue) :
    ofJson? j v.toJson = some v := by
  have hkeys : ["id", "text"].Nodup := by decide
  have hfields : j.fields fields v.toJson = some [some (.text v.id), some (.text v.text)] :=
    hj.fields_record hkeys (by simp [fields])
  rw [ofJson?, hfields]
  simp [withDefault?, required?, hj.text]

theorem LabelType.ofJson?_toJson (hj : j.Conforms) (t : LabelType) :
    ofJson? j t.toJson = some t := by
  have hvalues : j.list? (LabelValue.ofJson? j) (.array (t.values.map LabelValue.toJson)) =
      some t.values := hj.list?_map fun v _ => v.ofJson?_toJson hj
  have hkeys : ["id", "name", "values"].Nodup := by decide
  have hfields : j.fields fields t.toJson = some [some (.text t.id), some (.text t.name),
      some (.array (t.values.map LabelValue.toJson))] :=
    hj.fields_record hkeys (by simp [fields])
  rw [ofJson?, hfields]
  simp [withDefault?, required?, hj.text, hvalues]

theorem LabelValue.printable_toJson (v : LabelValue) : Printable v.toJson :=
  .record (List.forall_mem_cons.2 ⟨.text _, List.forall_mem_singleton.2 (.text _)⟩)

theorem LabelType.printable_toJson (t : LabelType) : Printable t.toJson := by
  refine .record (List.forall_mem_cons.2 ⟨.text _, List.forall_mem_cons.2 ⟨.text _,
    List.forall_mem_singleton.2 (.array (List.forall_mem_map.2 fun v _ => v.printable_toJson))⟩⟩)

namespace Catalog

/-! ## The check -/

theorem firstRepeat_of_nodup {xs seen : List String} (h : xs.Nodup) (hseen : ∀ x ∈ xs, x ∉ seen) :
    firstRepeat seen xs = none := by
  induction xs generalizing seen with
  | nil => rfl
  | cons x xs ih =>
    obtain ⟨hx, hxs⟩ := List.nodup_cons.1 h
    rw [firstRepeat, if_neg (hseen x (.head _))]
    refine ih hxs fun y hy => ?_
    rw [List.mem_cons, not_or]
    exact ⟨fun heq => hx (heq ▸ hy), hseen y (.tail _ hy)⟩

theorem violationFrom_of_wellFormed {types : List LabelType} (h : WellFormed types) (index : Nat)
    {seen : List String} (hseen : ∀ t ∈ types, t.name ∉ seen) :
    violationFrom index seen types = none := by
  induction types generalizing index seen with
  | nil => rfl
  | cons t ts ih =>
    obtain ⟨hnamed, hnames, htexts⟩ := h
    obtain ⟨hname, hnamed⟩ := List.forall_mem_cons.1 hnamed
    obtain ⟨hfresh, hnames⟩ := List.nodup_cons.1 hnames
    obtain ⟨htext, htexts⟩ := List.forall_mem_cons.1 htexts
    rw [violationFrom, if_neg hname, if_neg (hseen t (.head _)),
      firstRepeat_of_nodup htext fun _ _ => List.not_mem_nil]
    refine ih ⟨hnamed, hnames, htexts⟩ (index + 1) fun u hu => ?_
    rw [List.mem_cons, not_or]
    exact ⟨fun heq => hfresh (heq ▸ List.mem_map_of_mem hu), hseen u (.tail _ hu)⟩

/-- A catalog passes the check. -/
theorem ofTypes_types (c : Catalog) : ofTypes c.types = .ok c := by
  have hnone : violation? c.types = none :=
    violationFrom_of_wellFormed c.wellFormed 0 fun _ _ => List.not_mem_nil
  unfold ofTypes
  split
  · rename_i e he
    rw [hnone] at he
    cases he
  · rfl

/-! ## Arrays -/

theorem typesOfJson?_toJson (hj : j.Conforms) (c : Catalog) :
    typesOfJson? j c.toJson = some c.types :=
  hj.list?_map fun t _ => t.ofJson?_toJson hj

theorem printable_toJson (c : Catalog) : Printable c.toJson :=
  .array (List.forall_mem_map.2 fun t _ => t.printable_toJson)

/-- A catalog is loaded from every text of what it is saved as. -/
theorem ofArray_of_denotes (hj : j.Conforms) {c : Catalog} {text : String}
    (h : Denotes text.toList c.toJson) : ofArray j text = .ok c := by
  rw [ofArray, hj.read h, Option.bind_eq_bind, Option.bind_some, typesOfJson?_toJson hj, load,
    ofTypes_types]
  rfl

theorem ofArray_write (hj : j.Conforms) (c : Catalog) : ofArray j (j.write c.toJson) = .ok c :=
  ofArray_of_denotes hj (hj.write c.printable_toJson)

/-- What is loaded are the types that the text holds. -/
theorem types_of_ofArray {text : String} {c : Catalog} (h : ofArray j text = .ok c) :
    j.read text >>= typesOfJson? j = some c.types := by
  unfold ofArray load at h
  cases htypes : j.read text >>= typesOfJson? j with
  | none => rw [htypes] at h; cases h
  | some types =>
    rw [htypes] at h
    cases hc : ofTypes types with
    | error e => simp [hc, Except.mapError] at h
    | ok d =>
      have hd : d = c := by simpa [hc, Except.mapError] using h
      rw [← hd, types_of_ofTypes hc]

/-! ## Diagrams -/

/-- The label types of a diagram are those under their key. -/
theorem diagramTypes?_record (hj : j.Conforms) {before after : List (String × Json)}
    (h : ∀ m ∈ before ++ after, m.1 ≠ "labelTypes") (items : List Json) :
    diagramTypes? j (record (before ++ ("labelTypes", .array items) :: after)) =
      (typesOfJson? j (.array items)).map some := by
  have hfields : j.fields diagramFields (record (before ++ ("labelTypes", .array items) :: after)) =
      some [some (.array items)] := hj.fields_member h
  rw [diagramTypes?, hfields]
  rfl

/-- A diagram that carries the text of an array loads as the array does. -/
theorem ofDiagram_of_carries (hj : j.Conforms) {types diagram : String} {items : List Json}
    (htypes : Denotes types.toList (.array items)) (h : Carries "labelTypes" types diagram) :
    ofDiagram j diagram = (ofArray j types).map some := by
  obtain ⟨before, after, hdiagram, hothers⟩ := h.denotes htypes
  rw [ofDiagram, ofArray, hj.read hdiagram, hj.read htypes]
  simp only [Option.bind_eq_bind, Option.bind_some, diagramTypes?_record hj hothers]
  cases typesOfJson? j (.array items) with
  | none => rfl
  | some types => rfl

end Catalog

/-- With any library that conforms, a catalog is loaded from every text of what it is saved as,
alone or carried by a diagram, and the library writes such a text. What is loaded from any text is a
catalog of the types in the text, and it is loaded again once it is saved. -/
theorem saved_catalog_exact (j : Json.Library) (hj : j.Conforms) :
    (∀ c : Catalog, Catalog.ofTypes c.types = .ok c ∧ Denotes (j.write c.toJson).toList c.toJson ∧
      ∀ text : String, Denotes text.toList c.toJson → Catalog.ofArray j text = .ok c ∧
        ∀ diagram, Carries "labelTypes" text diagram →
          Catalog.ofDiagram j diagram = .ok (some c)) ∧
    ∀ (text : String) (c : Catalog), Catalog.ofArray j text = .ok c →
      j.read text >>= Catalog.typesOfJson? j = some c.types ∧ Catalog.WellFormed c.types ∧
        Catalog.ofArray j (j.write c.toJson) = .ok c := by
  refine ⟨fun c => ⟨c.ofTypes_types, hj.write c.printable_toJson, fun text htext => ?_⟩,
    fun text c h => ⟨Catalog.types_of_ofArray h, c.wellFormed, c.ofArray_write hj⟩⟩
  have hload := Catalog.ofArray_of_denotes hj htext
  refine ⟨hload, fun diagram hdiagram => ?_⟩
  rw [Catalog.ofDiagram_of_carries hj htext hdiagram, hload]
  rfl

/-- A line feed that is escaped by its code point is written in the short way, and what was left out
is written in full. A diagram may have more members and blanks around. -/
theorem saved_catalog_exact_defaults : ∃ c : Catalog, c.types = [⟨"", "T\n", []⟩] ∧
    Catalog.ofArray .builtIn "[\x7b\"name\":\"T\\u000A\"\x7d]" = .ok c ∧
    Json.Library.builtIn.write c.toJson =
      "[\x7b\"id\":\"\",\"name\":\"T\\n\",\"values\":[]\x7d]" ∧
    Catalog.ofArray .builtIn (Json.Library.builtIn.write c.toJson) = .ok c ∧
    Catalog.ofDiagram .builtIn ("\x7b\"v\":1e0,\"labelTypes\":" ++
      "[\x7b\"id\":\"\",\"name\":\"T\\n\",\"values\":[]\x7d]\x7d\n") = .ok (some c) := by
  have hconforms := Library.conforms_builtIn
  obtain ⟨c, hc⟩ : ∃ c : Catalog, c.types = [⟨"", "T\n", []⟩] :=
    ⟨⟨_, by decide, by decide, by decide⟩, rfl⟩
  have hname : Denotes "\"T\\u000A\"".toList (.text "T\n") := by
    have hinside : Inside ['T', '\\', 'u', '0', '0', '0', 'A'] ['T'.toNat, '\n'.toNat] :=
      .plain (by decide) (by decide) (by decide) (.unit (k := 0) (l := 0) (m := 0) (n := 10)
        (by decide) (by decide) (by decide) (by decide) .nil)
    exact (IsValue.text hinside (.single (.single .nil))).denotes
  have htype : Denotes ("" ++ objectText [⟨"\"name\"", "\"T\\u000A\""⟩] ++ "").toList
      (record [("name", .text "T\n")]) :=
    denotes_objectText (by decide) (by decide) (.cons ⟨denotes_quoted (by decide), hname⟩ .nil)
  have htypes : Denotes "[\x7b\"name\":\"T\\u000A\"\x7d]".toList
      (.array [.record [("name", .text "T\n")]]) := (IsValue.array (.one htype)).denotes
  have hloaded : Catalog.ofArray .builtIn "[\x7b\"name\":\"T\\u000A\"\x7d]" = .ok c := by
    rw [Catalog.ofArray, hconforms.read htypes]
    show Catalog.load (some [⟨"", "T\n", []⟩]) = .ok c
    rw [← hc, Catalog.load, Catalog.ofTypes_types]
    rfl
  have hsaved : Json.Library.builtIn.write c.toJson =
      "[\x7b\"id\":\"\",\"name\":\"T\\n\",\"values\":[]\x7d]" := by
    rw [Catalog.toJson, hc]
    decide
  have hdigits : ∀ c : Char, c.isDigit = true → Digits [c] := fun c hc =>
    ⟨List.cons_ne_nil c [], List.forall_mem_singleton.2 hc⟩
  have hwhole : Whole ['1'] := .digits (by decide) (hdigits '1' rfl)
  have hexponent : Exponent ['e', '0'] := .plain (.inl rfl) (hdigits '0' rfl)
  have hone : Numeral "1e0".toList := .plain hwhole .none hexponent
  have hother : MemberText.Other "labelTypes" ⟨"\"v\"", "1e0"⟩ :=
    ⟨("v", .number "1e0"), ⟨denotes_quoted (by decide), (IsValue.number hone).denotes⟩, by decide⟩
  have hcarries : Carries "labelTypes" (Json.Library.builtIn.write c.toJson) _ :=
    .intro "" "\"labelTypes\"" "\n" [⟨"\"v\"", "1e0"⟩] [] (by decide) (by decide)
      (denotes_quoted (by decide)) (List.forall_mem_singleton.2 hother)
  obtain ⟨hall, hback⟩ := saved_catalog_exact .builtIn hconforms
  obtain ⟨-, htext, hread⟩ := hall c
  have hdiagram := (hread _ htext).2 _ hcarries
  rw [hsaved] at hdiagram
  exact ⟨c, hc, hloaded, hsaved, (hback _ c hloaded).2.2, hdiagram⟩

end LabelFlow
