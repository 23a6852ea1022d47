import LabelFlow.Text.Quoted

/-!
# Label catalogs

A `Catalog` defines label types and the values of each. Type names are not empty and no two types
share one, and no type lists a value twice (`Catalog.WellFormed`). `Catalog.ofTypes` checks this
from the front and reports the first violation (`CatalogError`).
-/

set_option autoImplicit false

namespace LabelFlow

/-- A value of a label type. Its identifier plays no part in looking labels up. -/
structure LabelValue where
  id : String
  text : String
deriving DecidableEq, Repr

/-- A label type with its values. -/
structure LabelType where
  id : String
  name : String
  values : List LabelValue
deriving DecidableEq, Repr

namespace LabelType

/-- A type with values of the given texts, without identifiers. -/
def ofTexts (name : String) (texts : List String) : LabelType :=
  ⟨"", name, texts.map fun text => ⟨"", text⟩⟩

/-- The texts of the values. -/
def texts (t : LabelType) : List String := t.values.map LabelValue.text

/-- Lists a value with this text. -/
def hasValue (t : LabelType) (text : String) : Bool := t.texts.contains text

end LabelType

/-- Why label types make no catalog. -/
inductive CatalogError
  | emptyName (index : Nat)
  | duplicateType (name : String)
  | duplicateValue (labelType value : String)
deriving DecidableEq, Repr

namespace CatalogError

/-- The wording of a violation. -/
def message : CatalogError → String
  | .emptyName index => "label type #" ++ index.repr ++ " has an empty name"
  | .duplicateType name => "duplicate label type: " ++ name
  | .duplicateValue labelType value =>
    "duplicate value " ++ Text.quoted value ++ " in label type " ++ labelType

end CatalogError

namespace Catalog

/-- The first text that repeats an earlier one, of which `seen` are some. -/
def firstRepeat (seen : List String) : List String → Option String
  | [] => none
  | x :: xs => if x ∈ seen then some x else firstRepeat (x :: seen) xs

/-- The first violation among label types, of which the first has the given index and the names
before it are `seen`. -/
def violationFrom (index : Nat) (seen : List String) : List LabelType → Option CatalogError
  | [] => none
  | t :: ts =>
    if t.name = "" then some (.emptyName index)
    else if t.name ∈ seen then some (.duplicateType t.name)
    else
      match firstRepeat [] t.texts with
      | some value => some (.duplicateValue t.name value)
      | none => violationFrom (index + 1) (t.name :: seen) ts

/-- The first violation among label types. -/
def violation? (types : List LabelType) : Option CatalogError := violationFrom 0 [] types

/-- What label types must satisfy to make a catalog. -/
structure WellFormed (types : List LabelType) : Prop where
  named : ∀ t ∈ types, t.name ≠ ""
  distinctNames : (types.map LabelType.name).Nodup
  distinctTexts : ∀ t ∈ types, t.texts.Nodup

theorem firstRepeat_eq_none {xs : List String} :
    ∀ {seen : List String}, firstRepeat seen xs = none → xs.Nodup ∧ ∀ x ∈ xs, x ∉ seen := by
  induction xs with
  | nil => intro seen _; simp
  | cons x xs ih =>
    intro seen h
    unfold firstRepeat at h
    split at h
    · cases h
    · rename_i hx
      obtain ⟨hn, hd⟩ := ih h
      refine ⟨List.nodup_cons.2 ⟨fun hm => hd x hm (.head _), hn⟩, fun y hy => ?_⟩
      rcases List.mem_cons.1 hy with rfl | hy
      · exact hx
      · exact fun hs => hd y hy (.tail _ hs)

theorem violationFrom_eq_none {ts : List LabelType} :
    ∀ {index : Nat} {seen : List String}, violationFrom index seen ts = none →
      WellFormed ts ∧ ∀ t ∈ ts, t.name ∉ seen := by
  induction ts with
  | nil => intro _ seen _; exact ⟨⟨by simp, by simp, by simp⟩, by simp⟩
  | cons t ts ih =>
    intro index seen h
    unfold violationFrom at h
    split at h
    · cases h
    rename_i hname
    split at h
    · cases h
    rename_i hseen
    split at h
    · cases h
    rename_i hrep
    obtain ⟨hw, hd⟩ := ih h
    refine ⟨⟨fun u hu => ?_, ?_, fun u hu => ?_⟩, fun u hu => ?_⟩
    · rcases List.mem_cons.1 hu with rfl | hu
      · exact hname
      · exact hw.named u hu
    · refine List.nodup_cons.2 ⟨fun hm => ?_, hw.distinctNames⟩
      obtain ⟨u, hu, he⟩ := List.mem_map.1 hm
      exact hd u hu (he ▸ .head _)
    · rcases List.mem_cons.1 hu with rfl | hu
      · exact (firstRepeat_eq_none hrep).1
      · exact hw.distinctTexts u hu
    · rcases List.mem_cons.1 hu with rfl | hu
      · exact hseen
      · exact fun hs => hd u hu (.tail _ hs)

end Catalog

/-- A well-formed list of label types, in the order of their definition. -/
structure Catalog where
  types : List LabelType
  wellFormed : Catalog.WellFormed types
deriving DecidableEq

namespace Catalog

/-- The catalog of label types, or their first violation. -/
def ofTypes (types : List LabelType) : Except CatalogError Catalog :=
  match h : violation? types with
  | some e => .error e
  | none => .ok ⟨types, (violationFrom_eq_none h).1⟩

/-- The type with a name. -/
def find? (c : Catalog) (name : String) : Option LabelType :=
  c.types.find? fun t => t.name == name

/-- The names of the types. -/
def names (c : Catalog) : List String := c.types.map LabelType.name

end Catalog

end LabelFlow
