import Mathlib.Algebra.Group.Nat.Defs
import Mathlib.Data.List.Forall2
import LabelFlow.Diagnostic.Saved
import LabelFlow.Proofs.JsonRecords

/-!
# Saving diagnostics

Whatever library writes and reads it, a diagnostic is read from the text it is saved as and from any
other text of the same value, and different diagnostics are saved as different values, even if the
order of members is left out of account (`saved_diagnostic_exact`). The last part does not follow
from the others, since a reader may depend on the order; it rests on what stands under the keys of
values that are alike.

The entries of a context stand in ascending order, so putting them in one by one appends each
(`Context.ofList_entries`), and two contexts with the same entries in any order are the same
(`Context.eq_of_mem_iff`).
-/

set_option autoImplicit false

namespace LabelFlow

open Json

variable {j : Json.Library}

/-! ## Severities -/

theorem Severity.ofName?_name (s : Severity) : ofName? s.name = some s := by
  cases s <;> rfl

theorem Severity.name_inj {s t : Severity} (h : s.name = t.name) : s = t := by
  have hread := congrArg ofName? h
  rw [ofName?_name, ofName?_name] at hread
  exact Option.some.inj hread

theorem Severity.ofJson?_name (hj : j.Conforms) (s : Severity) :
    ofJson? j (.text s.name) = some s := by
  have hname : s.name ∈ Severity.all.map Severity.name := by
    cases s <;> decide
  rw [ofJson?, hj.variant hname, Option.bind_eq_bind, Option.bind_some, ofName?_name]

/-! ## Contexts -/

namespace Context

/-- An entry with a key greater than all comes last. -/
theorem insertEntry_of_forall_lt {key value : String} {es : List (String × String)}
    (h : ∀ e ∈ es, e.1 < key) : insertEntry key value es = es ++ [(key, value)] := by
  induction es with
  | nil => rfl
  | cons e es ih =>
    obtain ⟨he, hes⟩ := List.forall_mem_cons.1 h
    have hne : key ≠ e.1 := by
      rintro rfl
      exact String.lt_irrefl _ he
    rw [insertEntry, if_neg (String.lt_asymm he), if_neg hne, ih hes]
    rfl

/-- Entries that go on in ascending order are appended one by one. -/
theorem entries_foldl_insert (c : Context) (es : List (String × String))
    (h : (c.entries ++ es).Pairwise fun a b => a.1 < b.1) :
    (es.foldl (fun c e => c.insert e.1 e.2) c).entries = c.entries ++ es := by
  induction es generalizing c with
  | nil => simp
  | cons e es ih =>
    have hlast : ∀ x ∈ c.entries, x.1 < e.1 := fun x hx =>
      (List.pairwise_append.1 h).2.2 x hx e (.head _)
    have hentries : (c.insert e.1 e.2).entries = c.entries ++ [e] :=
      insertEntry_of_forall_lt hlast
    rw [List.foldl_cons, ih, hentries, List.append_assoc]
    · rfl
    · rwa [hentries, List.append_assoc]

/-- The entries of a context make the context. -/
theorem ofList_entries (c : Context) : ofList c.entries = c := by
  have hentries : (ofList c.entries).entries = c.entries :=
    entries_foldl_insert empty c.entries c.ascending
  cases hc : ofList c.entries
  cases c
  simp_all

/-- A context is read back as it was saved. -/
theorem ofJson?_toJson (hj : j.Conforms) (c : Context) : ofJson? j c.toJson = some c := by
  have hvalues : ((c.entries.map fun e => (e.1, Json.text e.2)).mapM fun e =>
      (j.text e.2).map fun value => (e.1, value)) = some c.entries :=
    mapM_map_eq_some fun e _ => by rw [hj.text, Option.map_some]
  rw [toJson, ofJson?, hj.entries]
  simp only [Option.bind_eq_bind, Option.bind_some]
  rw [hvalues, Option.bind_some, ofList_entries]

/-- Entries in ascending order are determined by what they are, whatever their order. -/
theorem eq_of_mem_iff {c d : Context} (h : ∀ e, e ∈ c.entries ↔ e ∈ d.entries) : c = d := by
  have hnodup (c : Context) : c.entries.Nodup := by
    refine c.ascending.imp fun {a b} hlt heq => ?_
    subst heq
    exact String.lt_irrefl _ hlt
  have hperm : c.entries.Perm d.entries := (List.perm_ext_iff_of_nodup (hnodup c) (hnodup d)).2 h
  have hentries : c.entries = d.entries :=
    hperm.eq_of_pairwise (fun a b _ _ hab hba => absurd hba (String.lt_asymm hab)) c.ascending
      d.ascending
  cases c
  cases d
  cases hentries
  rfl

/-- Different contexts are saved as values that are not alike. -/
theorem toJson_inj {c d : Context} (h : Alike c.toJson d.toJson) : c = d := by
  refine eq_of_mem_iff fun e => ⟨fun he => ?_, fun he => ?_⟩
  · obtain ⟨m, hm, hkey, hvalue⟩ := h.member_right (List.mem_map_of_mem he)
    obtain ⟨x, hx, rfl⟩ := List.mem_map.1 hm
    have hsame : x = e := Prod.ext hkey hvalue.text_inj.symm
    exact hsame ▸ hx
  · obtain ⟨m, hm, hkey, hvalue⟩ := h.member_left (List.mem_map_of_mem he)
    obtain ⟨x, hx, rfl⟩ := List.mem_map.1 hm
    have hsame : x = e := Prod.ext hkey hvalue.text_inj
    exact hsame ▸ hx

theorem printable_toJson (c : Context) : Printable c.toJson :=
  .record (List.forall_mem_map.2 fun _ _ => .text _)

end Context

/-! ## Diagnostics -/

namespace Diagnostic

/-- Lines and columns are numbers of 64 bits. -/
structure Addressable (d : Diagnostic) : Prop where
  line : d.line < UInt64.size
  colStart : ∀ c ∈ d.colStart, c < UInt64.size
  colEnd : ∀ c ∈ d.colEnd, c < UInt64.size

/-- The keys that a diagnostic is saved under, in the editor's spelling; there is none for what it
has no value for. -/
def keys (d : Diagnostic) : List String :=
  ["id", "severity", "message", "line"] ++ (d.colStart.map fun _ => "colStart").toList ++
    (d.colEnd.map fun _ => "colEnd").toList ++ (d.context.map fun _ => "context").toList

theorem keys_members (d : Diagnostic) : d.members.map Prod.fst = d.keys := by
  have hmember {α : Type} (name : String) (save : α → Json) (value : Option α) :
      (member name save value).map Prod.fst = (value.map fun _ => name).toList := by
    cases value <;> rfl
  simp only [members, List.map_append, hmember]
  rfl

/-- No key is given twice, and only the last three may be missing. -/
theorem nodup_keys (d : Diagnostic) : d.keys.Nodup ∧
    ∀ f ∈ fields, f.omission = .never → f.name ∈ d.keys := by
  obtain ⟨id, severity, message, line, colStart, colEnd, context⟩ := d
  cases colStart <;> cases colEnd <;> cases context <;> simp [keys, fields]

/-- The values that a diagnostic is saved with, in the order of the fields. -/
def fieldValues (d : Diagnostic) : List (Option Json) :=
  [some (.text d.id), some (.text d.severity.name), some (.text d.message), some (.natural d.line),
   d.colStart.map .natural, d.colEnd.map .natural, d.context.map Context.toJson]

theorem lookup_members (d : Diagnostic) :
    (fields.map fun f => d.members.lookup f.name) = d.fieldValues := by
  obtain ⟨id, severity, message, line, colStart, colEnd, context⟩ := d
  cases colStart <;> cases colEnd <;> cases context <;> rfl

/-- A diagnostic is read back as it was saved. -/
theorem ofJson?_toJson (hj : j.Conforms) {d : Diagnostic} (h : d.Addressable) :
    ofJson? j d.toJson = some d := by
  have hstart : Json.optional? j.natural (d.colStart.map .natural) = some d.colStart :=
    optional?_map nofun fun c hc => hj.natural (h.colStart c hc)
  have hend : Json.optional? j.natural (d.colEnd.map .natural) = some d.colEnd :=
    optional?_map nofun fun c hc => hj.natural (h.colEnd c hc)
  have hcontext : Json.optional? (Context.ofJson? j) (d.context.map Context.toJson) =
      some d.context := optional?_map nofun fun c _ => c.ofJson?_toJson hj
  obtain ⟨hnodup, hthere⟩ := d.nodup_keys
  rw [← keys_members] at hnodup hthere
  rw [ofJson?, toJson, hj.fields_record hnodup hthere, lookup_members]
  simp [fieldValues, hstart, hend, hcontext, required?, Severity.ofJson?_name hj,
    hj.natural h.line, hj.text]

theorem printable_toJson {d : Diagnostic} (h : d.Addressable) : Printable d.toJson := by
  have hmember {α : Type} (name : String) {save : α → Json} {value : Option α}
      (h : ∀ a ∈ value, Printable (save a)) : ∀ m ∈ member name save value, Printable m.2 := by
    cases value with
    | none => nofun
    | some a => exact List.forall_mem_singleton.2 (h a rfl)
  refine .record ?_
  simp only [members, List.forall_mem_append, List.forall_mem_cons]
  exact ⟨⟨⟨⟨.text _, .text _, .text _, .natural h.line, nofun⟩,
    hmember _ fun c hc => .natural (h.colStart c hc)⟩,
    hmember _ fun c hc => .natural (h.colEnd c hc)⟩, hmember _ fun c _ => c.printable_toJson⟩

/-- Different diagnostics are saved as values that are not alike. -/
theorem toJson_inj {d e : Diagnostic} (h : Alike d.toJson e.toJson) : d = e := by
  have hlookups : List.Forall₂ (Option.Rel Alike) d.fieldValues e.fieldValues := by
    rw [← lookup_members, ← lookup_members, List.forall₂_map_left_iff, List.forall₂_map_right_iff,
      List.forall₂_same]
    exact fun f _ => h.lookup f.name
  simp only [fieldValues, List.forall₂_cons, Option.rel_some_some] at hlookups
  obtain ⟨hid, hseverity, hmessage, hline, hstart, hend, hcontext, -⟩ := hlookups
  obtain ⟨id, severity, message, line, colStart, colEnd, context⟩ := d
  cases e
  obtain rfl : id = _ := hid.text_inj
  obtain rfl : severity = _ := Severity.name_inj hseverity.text_inj
  obtain rfl : message = _ := hmessage.text_inj
  obtain rfl : line = _ := hline.natural_inj
  obtain rfl : colStart = _ := Alike.optional_inj Alike.natural_inj hstart
  obtain rfl : colEnd = _ := Alike.optional_inj Alike.natural_inj hend
  obtain rfl : context = _ := Alike.optional_inj Context.toJson_inj hcontext
  rfl

end Diagnostic

/-- A diagnostic is saved as an object with its keys. With any library that conforms, it is read
from every text of this object, among which is the one that the library writes. No other diagnostic
is saved as the same value. -/
theorem saved_diagnostic_exact (d : Diagnostic) :
    (∃ members, d.toJson = record members ∧ members.map Prod.fst = d.keys) ∧
      (∀ j : Json.Library, j.Conforms → d.Addressable →
        Diagnostic.ofSaved? j (j.write d.toJson) = some d ∧
          ∀ text : String, Denotes text.toList d.toJson → Diagnostic.ofSaved? j text = some d) ∧
        ∀ e : Diagnostic, Alike d.toJson e.toJson → d = e := by
  refine ⟨⟨d.members, rfl, d.keys_members⟩, fun j hj h => ?_, fun e => Diagnostic.toJson_inj⟩
  have hread : ∀ text : String, Denotes text.toList d.toJson →
      Diagnostic.ofSaved? j text = some d := by
    intro text htext
    rw [Diagnostic.ofSaved?, hj.read htext]
    exact Diagnostic.ofJson?_toJson hj h
  exact ⟨hread _ (hj.write (Diagnostic.printable_toJson h)), hread⟩

/-- Characters that must be escaped come back, and so does the last line of all. An empty context is
not an absent one. -/
theorem saved_diagnostic_exact_escaped : ∃ d : Diagnostic,
    d = ⟨"\"", .warn, "\\\x01\n\r\t\x08\x0c𝄞", 2 ^ 64 - 1, none, some 0, some .empty⟩ ∧
    Json.Library.builtIn.Conforms ∧
    Json.Library.builtIn.write d.toJson = "\x7b\"id\":\"\\\"\",\"severity\":\"warn\"," ++
      "\"message\":\"\\\\\\u0001\\n\\r\\t\\b\\f𝄞\",\"line\":18446744073709551615," ++
      "\"colEnd\":0,\"context\":\x7b\x7d\x7d" ∧
    Diagnostic.ofSaved? .builtIn (Json.Library.builtIn.write d.toJson) = some d ∧
      ∀ e : Diagnostic, Alike d.toJson e.toJson → d = e := by
  obtain ⟨-, hread, halike⟩ := saved_diagnostic_exact
    ⟨"\"", .warn, "\\\x01\n\r\t\x08\x0c𝄞", 2 ^ 64 - 1, none, some 0, some .empty⟩
  obtain ⟨hwritten, -⟩ := hread .builtIn Library.conforms_builtIn
    ⟨by decide, nofun, fun c hc => by cases hc; decide⟩
  exact ⟨_, rfl, Library.conforms_builtIn, by decide, hwritten, halike⟩

end LabelFlow
