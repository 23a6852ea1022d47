import LabelFlow.Proofs.Run
import LabelFlow.Proofs.Search

/-!
# Validating texts one after the other

Lines are validated independently: what a text gives is what its two halves give, with the lines of
the second half counted on from those of the first (`Validator.validate_joined`).
-/

set_option autoImplicit false

namespace LabelFlow

/-- A text that goes on after a line feed has the lines of both parts. -/
theorem Text.lines_append (a b : String) : lines (a ++ "\n" ++ b) = lines a ++ lines b := by
  have hchars : (a ++ "\n" ++ b).toList = a.toList ++ '\n' :: b.toList := by
    rw [String.toList_append, String.toList_append, List.append_assoc]
    rfl
  rw [lines, hchars, Pieces.stretches_cut_append (p := (· == '\n')) rfl, List.map_append]
  rfl

/-- A text without a line feed is one line. -/
theorem Text.lines_of_not_mem {line : String} (h : '\n' ∉ line.toList) : lines line = [line] := by
  have hcut : Pieces.cut (· == '\n') line.toList = ⟨line.toList, []⟩ :=
    Pieces.cut_of_forall fun c hc => beq_eq_false_iff_ne.2 fun he => h (he ▸ hc)
  rw [lines, hcut, Pieces.stretches, List.map_nil, List.map_singleton, String.ofList_toList]

/-- The diagnostic of a line that stands further down. -/
def Diagnostic.later (lines : Nat) (d : Diagnostic) : Diagnostic :=
  { d with line := d.line + lines }

/-- What a text gives, and then what the rest gives that begins some lines further down. -/
def Outcome.followedBy (o : Outcome) (lines : Nat) (rest : Outcome) : Outcome :=
  ⟨o.diagnostics ++ rest.diagnostics.map (Diagnostic.later lines), max o.fetches rest.fetches⟩

namespace Validator

variable {v : Validator} {inputs : List String}

theorem report_later (number count : Nat) (line : String) :
    v.report inputs (number + count) line = (v.report inputs number line).map (.later count) := by
  rw [report, report, List.map_map]
  rfl

theorem reports_later (number count : Nat) (lines : List String) :
    (lines.zipIdx (number + count)).flatMap (fun e => v.report inputs e.2 e.1) =
      ((lines.zipIdx number).flatMap fun e => v.report inputs e.2 e.1).map (.later count) := by
  induction lines generalizing number with
  | nil => rfl
  | cons line lines ih =>
    rw [List.zipIdx_cons, List.zipIdx_cons, List.flatMap_cons, List.flatMap_cons, List.map_append,
      Nat.add_right_comm, ih, report_later]

theorem asks_append (v : Validator) (lines more : List String) :
    v.asks (lines ++ more) = (v.asks lines || v.asks more) := List.any_append

/-- A joined text gives what the first part gives and then what the second part gives. -/
theorem validate_joined (v : Validator) (a b : String) (owner : Owner) :
    v.validate (a ++ "\n" ++ b) owner = (do
      let o ← v.validate a owner
      let rest ← v.validate b owner
      .ok (o.followedBy (Text.lines a).length rest)) := by
  have hnode : ∀ inputs, v.validate (a ++ "\n" ++ b) (.node inputs) = (do
      let o ← v.validate a (.node inputs)
      let rest ← v.validate b (.node inputs)
      .ok (o.followedBy (Text.lines a).length rest)) := by
    intro inputs
    have hmax : ∀ x y : Bool, (x || y).toNat = max x.toNat y.toNat := by decide
    simp only [validate_node, bind, Except.bind, Outcome.followedBy, Text.lines_append,
      List.zipIdx_append, List.flatMap_append, reports_later, asks_append, hmax]
  cases owner with
  | node inputs => exact hnode inputs
  | missing =>
    -- each of the three texts fails if it asks, else it is as on a node, no matter which
    rw [validate_missing v _ [], validate_missing v a [], validate_missing v b [], hnode,
      Text.lines_append, asks_append, validate_node, validate_node]
    cases v.asks (Text.lines a) <;> cases v.asks (Text.lines b) <;> rfl

/-- How often validating a text asks a node for its inputs. An error comes of there being none. -/
def fetches (v : Validator) (text : String) (owner : Owner) : Nat :=
  match v.validate text owner with
  | .ok o => o.fetches
  | .error _ => 0

theorem fetches_missing (v : Validator) (text : String) : v.fetches text .missing = 0 := by
  rw [fetches, validate_missing v text [], validate_node]
  cases v.asks (Text.lines text) <;> rfl

end Validator

/-- Lines are validated independently: validating a joined text fails exactly if a part of it fails,
else it gives the diagnostics of the first part and then those of the second, counted on by the
lines of the first, and the node is asked as often as by the part that asks more. -/
theorem validate_append (v : Validator) (a b : String) (owner : Owner) :
    ((∃ e, v.validate (a ++ "\n" ++ b) owner = .error e) ↔
      (∃ e, v.validate a owner = .error e) ∨ ∃ e, v.validate b owner = .error e) ∧
    (∀ o rest, v.validate a owner = .ok o → v.validate b owner = .ok rest →
      ∃ joint, v.validate (a ++ "\n" ++ b) owner = .ok joint ∧ joint.diagnostics =
        o.diagnostics ++ rest.diagnostics.map (Diagnostic.later (Text.lines a).length)) ∧
    v.fetches (a ++ "\n" ++ b) owner = max (v.fetches a owner) (v.fetches b owner) := by
  have hjoined := v.validate_joined a b owner
  refine ⟨?_, fun o rest ho hrest => ?_, ?_⟩
  · rw [hjoined]
    cases v.validate a owner <;> cases v.validate b owner <;> simp [bind, Except.bind]
  · rw [ho, hrest] at hjoined
    exact ⟨_, hjoined, rfl⟩
  · cases owner with
    | missing => simp only [Validator.fetches_missing, Nat.max_self]
    | node inputs =>
      simp only [Validator.fetches, hjoined, Validator.validate_node, bind, Except.bind]
      rfl

/-- An input that the node lacks on the first line and an unknown statement on the second. -/
theorem validate_append_two : ∃ o rest joint,
    (Validator.standard none).validate "Forwarding(\x7ba\x7d)" (.node []) = .ok o ∧
    (Validator.standard none).validate "x" (.node []) = .ok rest ∧
    (Validator.standard none).validate ("Forwarding(\x7ba\x7d)" ++ "\n" ++ "x") (.node []) =
      .ok joint ∧
    joint.diagnostics = o.diagnostics ++ rest.diagnostics.map (.later 1) ∧
    joint.diagnostics.map Diagnostic.line = [0, 1] := by
  have ho := (Validator.standard none).validate_node "Forwarding(\x7ba\x7d)" []
  have hrest := (Validator.standard none).validate_node "x" []
  obtain ⟨-, hgives, -⟩ :=
    validate_append (.standard none) "Forwarding(\x7ba\x7d)" "x" (.node [])
  obtain ⟨joint, hjoint, hdiagnostics⟩ := hgives _ _ ho hrest
  refine ⟨_, _, joint, ho, hrest, hjoint, hdiagnostics, ?_⟩
  rw [hdiagnostics]
  rfl

end LabelFlow
