import Mathlib.Data.List.Forall2
import LabelFlow.Proofs.JsonGrammar

/-!
# Texts of objects

The text of an object is put together from the texts of its keys and values, with blanks wherever
they may stand. `Carries name value text` says that `text` is such a text and has one member of the
given name, with the given text of its value, among any others. It denotes an object with the value
of that text (`Carries.denotes`).
-/

set_option autoImplicit false

namespace LabelFlow.Json

/-- The texts of a key and a value. Each may have blanks around it. -/
structure MemberText where
  key : String
  value : String

namespace MemberText

/-- A member as it is written. -/
def chars (m : MemberText) : List Char := m.key.toList ++ ':' :: m.value.toList

/-- The member has a key and a value. -/
structure Denotes (m : MemberText) (member : String × Json) : Prop where
  key : Json.Denotes m.key.toList (.text member.1)
  value : Json.Denotes m.value.toList member.2

/-- A member with another name. -/
def Other (name : String) (m : MemberText) : Prop := ∃ member, m.Denotes member ∧ member.1 ≠ name

end MemberText

/-- Members between commas, within braces. -/
def objectText (members : List MemberText) : String :=
  .ofList ('\x7b' :: ([','].intercalate (members.map MemberText.chars) ++ ['\x7d']))

/-- The text of an object that has a member of the name with the text of a value. -/
inductive Carries (name value : String) : String → Prop
  | intro (lead key trail : String) (before after : List MemberText) (hlead : Blanks lead.toList)
    (htrail : Blanks trail.toList) (hkey : Json.Denotes key.toList (.text name))
    (hothers : ∀ m ∈ before ++ after, m.Other name) :
    Carries name value (lead ++ objectText (before ++ ⟨key, value⟩ :: after) ++ trail)

/-! ## Objects -/

theorem denotes_members {texts : List MemberText} {members : List (String × Json)}
    (h : List.Forall₂ MemberText.Denotes texts members) :
    MembersDenote ([','].intercalate (texts.map MemberText.chars))
      (members.map fun m => (some m.1, m.2)) := by
  induction h with
  | nil => exact .none nofun
  | @cons m member texts members hm htail ih =>
    cases htail with
    | nil =>
      rw [List.map_singleton, List.intercalate_singleton]
      exact .one hm.key hm.value
    | cons hn htail =>
      rw [List.map_cons, List.map_cons, List.intercalate_cons_cons, ← List.map_cons,
        MemberText.chars, List.append_assoc, List.append_assoc, List.cons_append]
      exact .more hm.key hm.value ih

/-- The text of an object denotes the object. -/
theorem denotes_objectText {lead trail : String} {texts : List MemberText}
    {members : List (String × Json)} (hlead : Blanks lead.toList) (htrail : Blanks trail.toList)
    (h : List.Forall₂ MemberText.Denotes texts members) :
    Denotes (lead ++ objectText texts ++ trail).toList (record members) := by
  rw [String.toList_append, String.toList_append, objectText, String.toList_ofList,
    List.append_assoc]
  exact .padded hlead htrail (.object (denotes_members h))

theorem exists_members {name : String} {texts : List MemberText}
    (h : ∀ m ∈ texts, m.Other name) : ∃ members : List (String × Json),
      List.Forall₂ MemberText.Denotes texts members ∧ ∀ m ∈ members, m.1 ≠ name := by
  induction texts with
  | nil => exact ⟨[], .nil, nofun⟩
  | cons m texts ih =>
    obtain ⟨⟨member, hm, hname⟩, htexts⟩ := List.forall_mem_cons.1 h
    obtain ⟨members, hmembers, hnames⟩ := ih htexts
    exact ⟨member :: members, .cons hm hmembers, List.forall_mem_cons.2 ⟨hname, hnames⟩⟩

/-- A text that carries a value denotes an object with that value. -/
theorem Carries.denotes {name value text : String} (h : Carries name value text) {v : Json}
    (hv : Denotes value.toList v) : ∃ before after : List (String × Json),
      Denotes text.toList (record (before ++ (name, v) :: after)) ∧
        ∀ m ∈ before ++ after, m.1 ≠ name := by
  obtain ⟨lead, key, trail, before, after, hlead, htrail, hkey, hothers⟩ := h
  obtain ⟨hbefore, hafter⟩ := List.forall_mem_append.1 hothers
  obtain ⟨membersBefore, hb, hbnames⟩ := exists_members hbefore
  obtain ⟨membersAfter, ha, hanames⟩ := exists_members hafter
  refine ⟨membersBefore, membersAfter, denotes_objectText hlead htrail ?_,
    List.forall_mem_append.2 ⟨hbnames, hanames⟩⟩
  exact List.rel_append hb (.cons ⟨hkey, hv⟩ ha)

/-! ## First characters -/

section
variable {skipped : Char → Bool} {text value name : String}

/-- The text of an object begins with its brace, blanks aside. -/
theorem Carries.head? (h : Carries name value text)
    (hblank : [' ', '\t', '\n', '\r'].all skipped = true) (hbrace : skipped '\x7b' = false) :
    (text.toList.dropWhile skipped).head? = some '\x7b' := by
  obtain ⟨lead, key, trail, before, after, hlead, htrail, hkey, hothers⟩ := h
  rw [String.toList_append, String.toList_append, objectText, String.toList_ofList,
    List.append_assoc, List.dropWhile_append_of_pos (hlead.forall hblank),
    List.cons_append, List.dropWhile_cons_of_neg (by simp [hbrace]), List.head?_cons]

/-- The text of an array begins with its bracket, blanks aside. -/
theorem Denotes.head?_array {cs : List Char} {items : List Json} (h : Denotes cs (.array items))
    (hblank : [' ', '\t', '\n', '\r'].all skipped = true) (hbracket : skipped '[' = false) :
    (cs.dropWhile skipped).head? = some '[' := by
  obtain ⟨hlead, htrail, hvalue⟩ := h
  cases hvalue
  rw [List.dropWhile_append_of_pos (hlead.forall hblank), List.cons_append,
    List.dropWhile_cons_of_neg (by simp [hbracket]), List.head?_cons]

end

end LabelFlow.Json
