import LabelFlow.Report
import LabelFlow.Proofs.Run
import LabelFlow.Proofs.SavedCatalogs

/-!
# Reports from saved settings

A report is the same whether a catalog is given as an array or carried by a diagram, and it is the
one of the validator with the settings that are loaded (`saved_settings_agree`). Which loader a text
goes to is decided by its first character, so an array goes to one and an object to the other
(`Catalog.ofSaved_array`, `Catalog.ofSaved_of_carries`). Validating on a node gives a report in any
case, and since all diagnostics are errors the report is fine only if it is empty
(`Report.ok_iff`).
-/

set_option autoImplicit false

namespace LabelFlow

open Json

variable {j : Json.Library}

/-! ## Either form of a catalog -/

namespace Catalog

variable {types : String} {items : List Json}

theorem isArrayText_of_denotes (htypes : Denotes types.toList (.array items)) :
    isArrayText types = true := by
  rw [isArrayText, htypes.head?_array (by decide) (by decide)]
  rfl

theorem isArrayText_of_carries {diagram : String} (h : Carries "labelTypes" types diagram) :
    isArrayText diagram = false := by
  rw [isArrayText, h.head? (by decide) (by decide)]
  rfl

theorem ofSaved_array (htypes : Denotes types.toList (.array items)) :
    ofSaved j types = (ofArray j types).map some := by
  rw [ofSaved, isArrayText_of_denotes htypes, if_pos rfl]

/-- The text of an object is loaded as a diagram, and as the array that it carries. -/
theorem ofSaved_of_carries (hj : j.Conforms) {diagram : String}
    (htypes : Denotes types.toList (.array items)) (h : Carries "labelTypes" types diagram) :
    ofSaved j diagram = ofSaved j types := by
  rw [ofSaved_array htypes, ofSaved, isArrayText_of_carries h, if_neg (by decide),
    ofDiagram_of_carries hj htypes h]

end Catalog

/-! ## Reports -/

namespace Report

/-- A report whose diagnostics are all errors is fine only if it is empty. -/
theorem ok_iff {r : Report} (h : ∀ d ∈ r.diagnostics, d.severity = .error) :
    r.ok = true ↔ r.diagnostics = [] := by
  obtain ⟨diagnostics⟩ := r
  cases diagnostics with
  | nil => simp [ok]
  | cons d ds => simp [ok, h d (.head _)]

theorem ofSaved_of_config_error {config : Option String} {e : Error}
    (h : loadConfig j config = .error e) (text : String) (inputs : List String)
    (catalog : Option String) : ofSaved j text inputs catalog config = .error e := by
  rw [ofSaved, h]
  rfl

theorem ofSaved_of_catalog_error {config : Option String} {catalog : String} {c : Config}
    {e : Error} (hconfig : loadConfig j config = .ok c) (h : loadCatalog j catalog = .error e)
    (text : String) (inputs : List String) :
    ofSaved j text inputs (some catalog) config = .error e := by
  rw [ofSaved, hconfig]
  simp only [h]
  rfl

/-- Once both settings are loaded there is a report, the one of the validator with them. -/
theorem ofSaved_of_ok {config : Option String} {catalog : String} {c : Config} {k : Option Catalog}
    (hconfig : loadConfig j config = .ok c) (hcatalog : loadCatalog j catalog = .ok k)
    (text : String) (inputs : List String) : ∃ o,
      Validator.validate ⟨c, k⟩ text (.node inputs) = .ok o ∧
        ofSaved j text inputs (some catalog) config = .ok ⟨o.diagnostics⟩ := by
  have hvalidate := Validator.validate_node ⟨c, k⟩ text inputs
  refine ⟨_, hvalidate, ?_⟩
  rw [ofSaved, hconfig]
  simp only [hcatalog, bind, Except.bind, hvalidate]
  rfl

end Report

/-- With any library that conforms, a saved array and a diagram that carries it give the same. A
configuration that is refused comes first, then the catalog. If neither is refused there is a
report, with the diagnostics of the validator with these settings, and it is fine if and only if it
has none. -/
theorem saved_settings_agree (j : Json.Library) (hj : j.Conforms) {types diagram : String}
    {items : List Json} (htypes : Denotes types.toList (.array items))
    (hdiagram : Carries "labelTypes" types diagram) (text : String) (inputs : List String)
    (config : Option String) :
    Report.ofSaved j text inputs (some diagram) config =
        Report.ofSaved j text inputs (some types) config ∧
      (∀ e, Report.loadConfig j config = .error e →
        Report.ofSaved j text inputs (some types) config = .error e) ∧
      (∀ c e, Report.loadConfig j config = .ok c → Catalog.ofArray j types = .error e →
        Report.ofSaved j text inputs (some types) config = .error (.catalog e)) ∧
      ∀ c k, Report.loadConfig j config = .ok c → Catalog.ofArray j types = .ok k → ∃ o,
        Validator.validate ⟨c, some k⟩ text (.node inputs) = .ok o ∧
          Report.ofSaved j text inputs (some types) config = .ok ⟨o.diagnostics⟩ ∧
            (Report.ok ⟨o.diagnostics⟩ = true ↔ o.diagnostics = []) := by
  have hload : Report.loadCatalog j types =
      ((Catalog.ofArray j types).map some).mapError .catalog := by
    rw [Report.loadCatalog, Catalog.ofSaved_array htypes]
  refine ⟨?_, fun e he => Report.ofSaved_of_config_error he text inputs _, fun c e hc he => ?_,
    fun c k hc hk => ?_⟩
  · simp only [Report.ofSaved, Report.loadCatalog, Catalog.ofSaved_of_carries hj htypes hdiagram]
  · rw [he] at hload
    exact Report.ofSaved_of_catalog_error hc hload text inputs
  · rw [hk] at hload
    obtain ⟨o, ho, hreport⟩ := Report.ofSaved_of_ok hc hload text inputs
    refine ⟨o, ho, hreport, Report.ok_iff fun d hd => ?_⟩
    obtain ⟨line, -, f, -, hfinding⟩ := Validator.mem_diagnostics ho hd
    rw [hfinding]
    rfl

/-- A catalog of one type with one value, which a diagram carries: a value that the type does not
have and an input that the node does not have are reported. A configuration that allows names of no
characters is refused before that. -/
theorem saved_settings_agree_loaded : ∃ (k : Catalog) (o : Outcome),
    k.types = [⟨"", "T", [⟨"", "v"⟩]⟩] ∧ Json.Library.builtIn.Conforms ∧
    Catalog.ofArray .builtIn "[\x7b\"name\":\"T\",\"values\":[\x7b\"text\":\"v\"\x7d]\x7d]" =
      .ok k ∧
    (Validator.standard (some k)).validate
      "Assignment(\x7bx,y\x7d;T.v && T.w;\x7b\x7d)" (.node ["x"]) = .ok o ∧
    o.diagnostics.map Diagnostic.id = ["BHV2102", "BHV2002"] ∧
    Report.ofSaved .builtIn "Assignment(\x7bx,y\x7d;T.v && T.w;\x7b\x7d)" ["x"]
      (some ("\x7b\"v\":null,\"labelTypes\":" ++
        "[\x7b\"name\":\"T\",\"values\":[\x7b\"text\":\"v\"\x7d]\x7d]\x7d")) none =
          .ok ⟨o.diagnostics⟩ ∧
    Report.ofSaved .builtIn "Assignment(\x7bx,y\x7d;T.v && T.w;\x7b\x7d)" ["x"]
      (some ("\x7b\"v\":null,\"labelTypes\":" ++
        "[\x7b\"name\":\"T\",\"values\":[\x7b\"text\":\"v\"\x7d]\x7d]\x7d"))
      (some "\x7b\"minInputNameLen\":0\x7d") = .error (.config .zeroNameLength) := by
  have hconforms := Library.conforms_builtIn
  let k : Catalog := ⟨[⟨"", "T", [⟨"", "v"⟩]⟩], by decide, by decide, by decide⟩
  have hvalues : Printable (.array [.record [("text", .text "v")]]) :=
    .array (List.forall_mem_singleton.2 (.record (List.forall_mem_singleton.2 (.text _))))
  have htypes : Denotes
      "[\x7b\"name\":\"T\",\"values\":[\x7b\"text\":\"v\"\x7d]\x7d]".toList
      (.array [.record [("name", .text "T"),
        ("values", .array [.record [("text", .text "v")]])]]) :=
    denotes_of_render (.array (List.forall_mem_singleton.2 (.record (List.forall_mem_cons.2
      ⟨.text _, List.forall_mem_singleton.2 hvalues⟩)))) (by decide)
  have hother : MemberText.Other "labelTypes" ⟨"\"v\"", "null"⟩ :=
    ⟨("v", .null), ⟨denotes_quoted (by decide), IsValue.nullWord.denotes⟩, by decide⟩
  have hcarries : Carries "labelTypes"
      "[\x7b\"name\":\"T\",\"values\":[\x7b\"text\":\"v\"\x7d]\x7d]" _ :=
    .intro "" "\"labelTypes\"" "" [⟨"\"v\"", "null"⟩] [] (by decide) (by decide)
      (denotes_quoted (by decide)) (List.forall_mem_singleton.2 hother)
  have hloaded : Catalog.ofArray .builtIn
      "[\x7b\"name\":\"T\",\"values\":[\x7b\"text\":\"v\"\x7d]\x7d]" = .ok k := by
    rw [Catalog.ofArray, hconforms.read htypes]
    show Catalog.load (some k.types) = .ok k
    rw [Catalog.load, Catalog.ofTypes_types]
    rfl
  have hconfig : Denotes "\x7b\"minInputNameLen\":0\x7d".toList
      (.record [("minInputNameLen", .natural 0)]) :=
    denotes_of_render (.record (List.forall_mem_singleton.2 (.natural (by decide)))) (by decide)
  have hrefused : Report.loadConfig .builtIn (some "\x7b\"minInputNameLen\":0\x7d") =
      .error (.config .zeroNameLength) := by
    rw [Report.loadConfig, Config.ofSaved, hconforms.read hconfig]
    rfl
  have hagree := saved_settings_agree .builtIn hconforms htypes hcarries
    "Assignment(\x7bx,y\x7d;T.v && T.w;\x7b\x7d)" ["x"]
  obtain ⟨hsame, -, -, hok⟩ := hagree none
  obtain ⟨o, ho, hreport, -⟩ := hok _ k rfl hloaded
  obtain ⟨hsame', herror, -, -⟩ := hagree (some "\x7b\"minInputNameLen\":0\x7d")
  refine ⟨k, o, rfl, hconforms, hloaded, ho, ?_, hsame.trans hreport,
    hsame'.trans (herror _ hrefused)⟩
  rw [Validator.validate_node] at ho
  cases ho
  rfl

end LabelFlow
