import LabelFlow.Proofs.SavedDiagnostics
import LabelFlow.Proofs.Unambiguity

/-!
# What a displayed diagnostic tells

Positions are displayed counted from one. A diagnostic is displayed with the exact numbers, unless
the line or a first column that would be shown is the last of 64 bits; then it is not displayed at
all (`Diagnostic.display_of_displayable`, `Diagnostic.display_of_not_displayable`). Nothing that is
displayed is ambiguous: the written form falls into its parts at the first bracket, at the first
closing one behind the identifier, and where digits end (`Diagnostic.written_inj`).
-/

set_option autoImplicit false

namespace LabelFlow.Diagnostic

/-! ## The written form -/

/-- The columns of the written form. -/
def writtenColumns : Option (Nat × Nat) → String
  | some (start, stop) => ", cols " ++ start.repr ++ "-" ++ stop.repr
  | none => ""

/-- The written form of a diagnostic with the given line and columns. -/
def written (d : Diagnostic) (line : Nat) (columns : Option (Nat × Nat)) : String :=
  d.severity.name ++ "[" ++ d.id ++ "] line " ++ line.repr ++ writtenColumns columns ++
    ": " ++ d.message

theorem toList_written (d : Diagnostic) (line : Nat) (columns : Option (Nat × Nat)) :
    (d.written line columns).toList = d.severity.name.toList ++ '[' :: (d.id.toList ++ ']' ::
      (" line ".toList ++ (line.repr.toList ++ ((writtenColumns columns).toList ++
        (": ".toList ++ d.message.toList))))) := by
  simp [written]

/-! ## Telling the parts apart -/

section
variable {m n : Nat} {a b : List Char}

/-- A number ends where no digit follows. -/
theorem repr_append_inj (ha : ∀ c ∈ a.head?, c.isDigit = false)
    (hb : ∀ c ∈ b.head?, c.isDigit = false) (h : m.repr.toList ++ a = n.repr.toList ++ b) :
    m = n ∧ a = b := by
  obtain ⟨hdigits, hrest⟩ := cut_unique Char.isDigit (fun _ => Json.isDigit_of_mem_repr)
    (fun _ => Json.isDigit_of_mem_repr) ha hb h
  have hvalue := congrArg (fun cs => Nat.ofDigitChars 10 cs 0) hdigits
  simp only [Json.ofDigitChars_repr] at hvalue
  exact ⟨hvalue, hrest⟩

/-- Columns begin with a comma, and the message without columns with a colon. -/
theorem writtenColumns_append_inj {c d : Option (Nat × Nat)}
    (h : (writtenColumns c).toList ++ (": ".toList ++ a) =
      (writtenColumns d).toList ++ (": ".toList ++ b)) : c = d ∧ a = b := by
  match c, d with
  | none, none => exact ⟨rfl, List.append_cancel_left h⟩
  | none, some (start, stop) => simp [writtenColumns] at h
  | some (start, stop), none => simp [writtenColumns] at h
  | some (start, stop), some (start', stop') =>
    have hcols : start.repr.toList ++ '-' :: (stop.repr.toList ++ (": ".toList ++ a)) =
        start'.repr.toList ++ '-' :: (stop'.repr.toList ++ (": ".toList ++ b)) := by
      simpa [writtenColumns] using h
    obtain ⟨rfl, hstop⟩ := repr_append_inj (by simp) (by simp) hcols
    obtain ⟨rfl, hrest⟩ := repr_append_inj (by simp) (by simp) (List.cons.inj hstop).2
    exact ⟨rfl, List.append_cancel_left hrest⟩

end

section
variable {d e : Diagnostic} {m n : Nat} {c c' : Option (Nat × Nat)}

theorem position_inj {a b : List Char}
    (h : m.repr.toList ++ ((writtenColumns c).toList ++ (": ".toList ++ a)) =
      n.repr.toList ++ ((writtenColumns c').toList ++ (": ".toList ++ b))) :
    m = n ∧ c = c' ∧ a = b := by
  have hhead : ∀ (c : Option (Nat × Nat)) (a : List Char),
      ∀ x ∈ ((writtenColumns c).toList ++ (": ".toList ++ a)).head?, x.isDigit = false := by
    intro c a x hx
    cases c <;> simp [writtenColumns] at hx <;> subst hx <;> rfl
  obtain ⟨hline, hrest⟩ := repr_append_inj (hhead c a) (hhead c' b) h
  exact ⟨hline, writtenColumns_append_inj hrest⟩

theorem not_mem_name (s : Severity) : '[' ∉ s.name.toList := by
  cases s <;> decide

/-- The parts of the written form can be told from it, if no identifier has a closing bracket. -/
theorem written_inj (hd : ']' ∉ d.id.toList) (he : ']' ∉ e.id.toList)
    (h : d.written m c = e.written n c') :
    d.severity = e.severity ∧ d.id = e.id ∧ m = n ∧ c = c' ∧ d.message = e.message := by
  have hchars := congrArg String.toList h
  rw [toList_written, toList_written] at hchars
  obtain ⟨hname, hchars⟩ := cut_unique_first (not_mem_name _) (not_mem_name _) hchars
  obtain ⟨hid, hchars⟩ := cut_unique_first hd he hchars
  obtain ⟨hline, hcolumns, hmessage⟩ := position_inj (List.append_cancel_left hchars)
  exact ⟨Severity.name_inj (String.toList_inj.1 hname), String.toList_inj.1 hid, hline, hcolumns,
    String.toList_inj.1 hmessage⟩

end

/-! ## Positions -/

/-- The line and a first column that is shown have numbers of 64 bits when counted from one. -/
structure Displayable (d : Diagnostic) : Prop where
  line : d.line + 1 < UInt64.size
  start : ∀ c ∈ d.columns, c.1 + 1 < UInt64.size

section
variable {d e : Diagnostic} {n : Nat}

theorem ordinal_eq_ok (h : n + 1 < UInt64.size) : ordinal n = .ok (n + 1) := if_pos h

theorem ordinal_eq_error (h : ¬ n + 1 < UInt64.size) : ordinal n = .error .addition := if_neg h

theorem columns_eq_some_iff {start stop : Nat} :
    d.columns = some (start, stop) ↔ d.colStart = some start ∧ d.colEnd = some stop := by
  unfold columns
  cases d.colStart <;> cases d.colEnd <;> simp

theorem displayColumns_of_displayable (h : ∀ c ∈ d.columns, c.1 + 1 < UInt64.size) :
    d.displayColumns = .ok (writtenColumns (d.columns.map fun c => (c.1 + 1, c.2))) := by
  unfold displayColumns
  cases hc : d.columns with
  | none => rfl
  | some c =>
    have hstart : ordinal c.1 = .ok (c.1 + 1) := ordinal_eq_ok (h c hc)
    simp only [hstart]
    rfl

theorem displayColumns_eq_error {c : Nat × Nat} (hc : d.columns = some c)
    (h : ¬ c.1 + 1 < UInt64.size) : d.displayColumns = .error .addition := by
  unfold displayColumns
  rw [hc]
  show (ordinal c.1 >>= fun start => _) = _
  rw [ordinal_eq_error h]
  rfl

/-- The positions that are shown are the exact ones, counted from one. -/
theorem display_of_displayable (h : d.Displayable) :
    d.display = .ok (d.written (d.line + 1) (d.columns.map fun c => (c.1 + 1, c.2))) := by
  rw [display, ordinal_eq_ok h.line, displayColumns_of_displayable h.start]
  rfl

/-- Nothing is shown where a number does not suffice. -/
theorem display_of_not_displayable (h : ¬ d.Displayable) : d.display = .error .addition := by
  unfold display
  by_cases hline : d.line + 1 < UInt64.size
  · rw [ordinal_eq_ok hline]
    cases hc : d.columns with
    | none =>
      have hstart : ∀ c ∈ d.columns, c.1 + 1 < UInt64.size := by
        rw [hc]
        nofun
      exact absurd ⟨hline, hstart⟩ h
    | some c =>
      have hlast : ¬ c.1 + 1 < UInt64.size := by
        intro hlt
        refine h ⟨hline, fun c' hc' => ?_⟩
        obtain rfl : c = c' := Option.some.inj (hc.symm.trans hc')
        exact hlt
      rw [displayColumns_eq_error hc hlast]
      rfl
  · rw [ordinal_eq_error hline]
    rfl

/-- What is displayed is the written form with the exact positions. -/
theorem written_of_display {text : String} (h : d.display = .ok text) :
    d.written (d.line + 1) (d.columns.map fun c => (c.1 + 1, c.2)) = text := by
  by_cases hd : d.Displayable
  · rw [display_of_displayable hd] at h
    exact Except.ok.inj h
  · rw [display_of_not_displayable hd] at h
    cases h

/-- Columns are told by what is shown of them. -/
theorem columns_inj {c c' : Option (Nat × Nat)}
    (h : c.map (fun c => (c.1 + 1, c.2)) = c'.map fun c => (c.1 + 1, c.2)) : c = c' := by
  refine Option.map_injective (fun a b hab => ?_) h
  obtain ⟨hstart, hstop⟩ := Prod.mk.inj hab
  exact Prod.ext (Nat.succ.inj hstart) hstop

/-- What is displayed tells the position and the message. -/
theorem display_inj {text : String} (hid : ']' ∉ d.id.toList) (hie : ']' ∉ e.id.toList)
    (hd : d.display = .ok text) (he : e.display = .ok text) :
    d.severity = e.severity ∧ d.id = e.id ∧ d.line = e.line ∧ d.columns = e.columns ∧
      d.message = e.message := by
  have hsame := (written_of_display hd).trans (written_of_display he).symm
  obtain ⟨hseverity, hid, hline, hcolumns, hmessage⟩ := written_inj hid hie hsame
  exact ⟨hseverity, hid, Nat.succ.inj hline, columns_inj hcolumns, hmessage⟩

end

/-- A diagnostic whose line and shown first column are not the last of 64 bits is displayed with the
exact positions, counted from one, and any other is not displayed. Columns are shown if and only if
both are known. Two diagnostics that are displayed in the same way agree in severity, identifier,
line, columns and message, if no identifier has a closing bracket. -/
theorem display_exact (d : Diagnostic) :
    (d.Displayable →
      d.display = .ok (d.written (d.line + 1) (d.columns.map fun c => (c.1 + 1, c.2)))) ∧
    (¬ d.Displayable → d.display = .error .addition) ∧
    (∀ start stop, d.columns = some (start, stop) ↔
      d.colStart = some start ∧ d.colEnd = some stop) ∧
    ∀ (e : Diagnostic) (text : String), ']' ∉ d.id.toList → ']' ∉ e.id.toList →
      d.display = .ok text → e.display = .ok text → d.severity = e.severity ∧ d.id = e.id ∧
        d.line = e.line ∧ d.columns = e.columns ∧ d.message = e.message :=
  ⟨display_of_displayable, display_of_not_displayable, fun _ _ => columns_eq_some_iff,
    fun _ _ => display_inj⟩

/-- The last line but one, in diagnostics that differ in a lone first column and in context. -/
theorem display_exact_lone : ∃ d e : Diagnostic,
    d = ⟨"X", .warn, ", cols", 2 ^ 64 - 2, some 4, none, none⟩ ∧
    e = ⟨"X", .warn, ", cols", 2 ^ 64 - 2, none, none, some .empty⟩ ∧
    d.display = .ok (d.written (d.line + 1) none) ∧
    d.written (d.line + 1) none = "warn[X] line 18446744073709551615: , cols" ∧
    d.columns = e.columns ∧ d.message = e.message := by
  obtain ⟨hexact, -, -, htold⟩ :=
    display_exact ⟨"X", .warn, ", cols", 2 ^ 64 - 2, some 4, none, none⟩
  have hdisplay := hexact ⟨by decide, nofun⟩
  obtain ⟨-, -, -, hcolumns, hmessage⟩ := htold
    ⟨"X", .warn, ", cols", 2 ^ 64 - 2, none, none, some .empty⟩ _ (by decide) (by decide) hdisplay
    (display_of_displayable ⟨by decide, nofun⟩)
  exact ⟨_, _, rfl, rfl, hdisplay, by decide, hcolumns, hmessage⟩

/-- The last line of all is not displayed. -/
theorem display_of_last_line : ∃ d : Diagnostic,
    ofSaved? .builtIn ("\x7b\"id\":\"X\",\"severity\":\"error\",\"message\":\"m\"," ++
      "\"line\":18446744073709551615\x7d") = some d ∧
    d.display = .error .addition ∧
    d.display ≠ .ok (d.written (d.line + 1) (d.columns.map fun c => (c.1 + 1, c.2))) := by
  have haddress : Addressable ⟨"X", .error, "m", 2 ^ 64 - 1, none, none, none⟩ :=
    ⟨by decide, nofun, nofun⟩
  have htext : Json.Denotes ("\x7b\"id\":\"X\",\"severity\":\"error\",\"message\":\"m\"," ++
      "\"line\":18446744073709551615\x7d").toList
      (toJson ⟨"X", .error, "m", 2 ^ 64 - 1, none, none, none⟩) :=
    Json.denotes_of_render (printable_toJson haddress) (by decide)
  have hread := ofJson?_toJson Json.Library.conforms_builtIn haddress
  refine ⟨⟨"X", .error, "m", 2 ^ 64 - 1, none, none, none⟩, ?_, by decide, by decide⟩
  rw [ofSaved?, Json.Library.conforms_builtIn.read htext]
  exact hread

end LabelFlow.Diagnostic
