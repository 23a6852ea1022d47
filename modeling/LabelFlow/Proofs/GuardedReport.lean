import LabelFlow.Proofs.Guarded
import LabelFlow.Proofs.Offsets
import LabelFlow.Validation.Context

/-!
# Reporting with operations that may fail

A column counts the characters up to the last bound of a character at or before an offset, which is
found by going back from it (`Guarded.column`). A message is put together from slices of its
template (`Guarded.expand`). Neither fails on any offset, line, template or context, so no finding
fails to be reported (`Guarded.report_eq`).
-/

set_option autoImplicit false

namespace LabelFlow.Guarded

open Text

/-! ## Bounds of characters -/

section
variable {cs a b : List Char} {n start stop : Nat}

theorem exists_of_cutAt? (h : cutAt? cs n = some (a, b)) : cs = a ++ b ∧ width a = n := by
  induction cs generalizing n a with
  | nil =>
    cases n with
    | zero =>
      cases h
      exact ⟨rfl, rfl⟩
    | succ n => cases h
  | cons c cs ih =>
    cases n with
    | zero =>
      cases h
      exact ⟨rfl, rfl⟩
    | succ n =>
      rw [cutAt?] at h
      split at h
      next hle =>
        obtain ⟨⟨a', b'⟩, hcut, heq⟩ := Option.map_eq_some_iff.1 h
        cases heq
        obtain ⟨rfl, hwidth⟩ := ih hcut
        refine ⟨rfl, ?_⟩
        rw [width_cons, hwidth]
        omega
      next => cases h

theorem slice_front (a b : List Char) : slice (a ++ b) 0 (width a) = .ok a := by
  have h := slice_append [] a b
  rwa [List.nil_append, width_nil, Nat.zero_add] at h

/-- A slice that begins behind the first character is shorter than the text. -/
theorem length_lt_of_slice (h : slice cs (start + 1) stop = .ok b) : b.length < cs.length := by
  rw [slice] at h
  split at h
  next =>
    split at h
    next front back hstop =>
      split at h
      next before mid hstart =>
        cases h
        obtain ⟨rfl, hwidth⟩ := exists_of_cutAt? hstart
        obtain ⟨rfl, -⟩ := exists_of_cutAt? hstop
        have hpos : 0 < before.length := by
          rw [List.length_pos_iff]
          rintro rfl
          cases hwidth
        simp only [List.length_append]
        omega
      next => cases h
    next => cases h
  next => cases h

end

/-! ## Columns -/

/-- The last bound of a character at or before an offset. -/
def boundary (cs : List Char) (offset : Nat) : Except Misuse Nat :=
  if (cutAt? cs offset).isSome then .ok offset
  else
    match offset with
    | 0 => .error .belowZero
    | offset + 1 => boundary cs offset

/-- The number of characters before an offset. -/
def column (cs : List Char) (offset : Nat) : Except Misuse Nat := do
  let bound ← boundary cs (min offset (width cs))
  let front ← slice cs 0 bound
  .ok front.length

section
variable {cs : List Char} {n : Nat}

/-- An offset in a character has the column of the one before it. -/
theorem column_succ (h : cutAt? cs (n + 1) = none) : Text.column cs (n + 1) = Text.column cs n := by
  induction cs generalizing n with
  | nil => rfl
  | cons c cs ih =>
    rw [Text.column, Text.column]
    rw [cutAt?] at h
    split at h
    next hle =>
      have hcut := Option.map_eq_none_iff.1 h
      by_cases hlast : c.utf8Size = n + 1
      · rw [hlast, Nat.sub_self] at hcut
        cases cs <;> cases hcut
      · have hbefore : c.utf8Size ≤ n := by omega
        have hnext : n + 1 - c.utf8Size = n - c.utf8Size + 1 := by omega
        rw [if_pos hle, if_pos hbefore, hnext, ih (hnext ▸ hcut)]
    next hle => rw [if_neg hle, if_neg (by omega)]

theorem column_of_width_le (h : width cs ≤ n) : Text.column cs n = cs.length := by
  induction cs generalizing n with
  | nil => rfl
  | cons c cs ih =>
    rw [width_cons] at h
    rw [Text.column, if_pos (by omega), ih (by omega), List.length_cons]

theorem boundary_eq (cs : List Char) (n : Nat) : ∃ a b, cs = a ++ b ∧
    boundary cs n = .ok (width a) ∧ Text.column cs n = a.length := by
  induction n with
  | zero =>
    refine ⟨[], cs, rfl, ?_, column_append [] cs⟩
    cases cs <;> rfl
  | succ n ih =>
    rw [boundary]
    cases h : cutAt? cs (n + 1) with
    | none =>
      rw [column_succ h]
      exact ih
    | some e =>
      obtain ⟨hsplit, hwidth⟩ := exists_of_cutAt? h
      refine ⟨e.1, e.2, hsplit, congrArg _ hwidth.symm, ?_⟩
      rw [← hwidth]
      conv => lhs; rw [hsplit]
      exact column_append e.1 e.2

theorem column_eq (cs : List Char) (n : Nat) : column cs n = .ok (Text.column cs n) := by
  have hmin : Text.column cs (min n (width cs)) = Text.column cs n := by
    rcases Nat.le_total n (width cs) with h | h
    · rw [Nat.min_eq_left h]
    · rw [Nat.min_eq_right h, column_of_width_le h, column_of_width_le (Nat.le_refl _)]
  obtain ⟨a, b, hsplit, hbound, hcolumn⟩ := boundary_eq cs (min n (width cs))
  have hslice := slice_front a b
  rw [← hsplit] at hslice
  rw [column, hbound, ← hmin, hcolumn]
  simp only [bind, Except.bind, hslice]

end

/-! ## Messages -/

/-- The offset of the first occurrence of a character. -/
def offsetOf? (c : Char) (cs : List Char) : Option Nat :=
  if c ∈ cs then some (width (cs.takeWhile (· != c))) else none

/-- What stands behind the character of one byte at an offset. -/
def behind (cs : List Char) (offset : Nat) :
    Except Misuse { b : List Char // b.length < cs.length } :=
  match h : slice cs (offset + 1) (width cs) with
  | .ok b => .ok ⟨b, length_lt_of_slice h⟩
  | .error e => .error e

/-- The text of a template in a context. -/
def expand (context : Context) (rest : List Char) : Except Misuse (List Char) :=
  match offsetOf? '\x7b' rest with
  | none => .ok rest
  | some opening => do
    let front ← slice rest 0 opening
    let after ← behind rest opening
    match offsetOf? '\x7d' after.1 with
    | none => do
      let more ← slice rest opening (width rest)
      .ok (front ++ more)
    | some closing => do
      let key ← slice after.1 0 closing
      let value ← match context.find? (.ofList key) with
        | some value => .ok value.toList
        | none => slice rest opening (opening + closing + 2)
      let left ← behind after.1 closing
      let more ← expand context left.1
      .ok (front ++ (value ++ more))
termination_by rest.length
decreasing_by exact Nat.lt_trans left.2 after.2

/-- The message of a problem. -/
def message (p : Problem) : Except Misuse String :=
  match p.context?, p.code.template? with
  | some context, some template => do
    let text ← expand context template.toList
    .ok (.ofList text)
  | _, _ => .ok p.message

/-- The diagnostic of a finding. One of the whole line has no columns yet. -/
def report (l : NumberedLine) (f : Finding) : Except Misuse Diagnostic := do
  let text ← message f.problem
  let plain := Diagnostic.ofLine f.problem.code.id f.problem.code.severity text l.number
  let placed ← match f.span with
    | some s => do
      let start ← column l.text.toList s.start
      let stop ← column l.text.toList s.stop
      .ok (plain.setColumns start stop)
    | none => .ok plain
  match f.problem.context? with
  | some context => .ok (placed.setContext context)
  | none => .ok placed

section
variable {c : Char} {a b cs key : List Char}

theorem cut_none_append (h : '\x7b' ∉ a) (cs : List Char) :
    Template.cut none (a ++ cs) = a.map .char ++ Template.cut none cs := by
  induction a with
  | nil => rfl
  | cons c a ih =>
    obtain ⟨hc, ha⟩ := List.ne_and_not_mem_of_not_mem_cons h
    rw [List.cons_append, Template.cut, if_neg (Ne.symm hc), ih ha]
    rfl

theorem cut_some_append (h : '\x7d' ∉ a) (key cs : List Char) :
    Template.cut (some key) (a ++ cs) = Template.cut (some (a.reverse ++ key)) cs := by
  induction a generalizing key with
  | nil => rfl
  | cons c a ih =>
    obtain ⟨hc, ha⟩ := List.ne_and_not_mem_of_not_mem_cons h
    rw [List.cons_append, Template.cut, if_neg (Ne.symm hc), ih ha]
    simp

/-- A text without an opening brace stands for itself. -/
theorem parts_of_not_mem (h : '\x7b' ∉ a) : Template.parts a = a.map .char := by
  have hcut := cut_none_append h []
  rwa [List.append_nil, Template.cut, List.append_nil] at hcut

/-- What stands before a placeholder and the placeholder itself are parts of a template. -/
theorem parts_placeholder (ha : '\x7b' ∉ a) (hkey : '\x7d' ∉ key) (cs : List Char) :
    Template.parts (a ++ '\x7b' :: (key ++ '\x7d' :: cs)) =
      a.map .char ++ .placeholder key :: Template.parts cs := by
  rw [Template.parts, cut_none_append ha, Template.cut, if_pos rfl, cut_some_append hkey,
    Template.cut, if_pos rfl, List.append_nil, List.reverse_reverse]
  rfl

/-- An opening brace that is never closed stands for itself, and so does what follows it. -/
theorem parts_unclosed (ha : '\x7b' ∉ a) (hb : '\x7d' ∉ b) :
    Template.parts (a ++ '\x7b' :: b) = (a ++ '\x7b' :: b).map .char := by
  have hend := cut_some_append hb [] []
  rw [List.append_nil, List.append_nil] at hend
  rw [Template.parts, cut_none_append ha, Template.cut, if_pos rfl, hend, Template.cut,
    List.reverse_reverse, List.map_append, List.map_cons]

theorem flatMap_fill_char (context : Context) (a : List Char) :
    (a.map .char).flatMap (Template.fill context) = a := by
  rw [List.flatMap_map]
  exact List.flatMap_singleton' a

theorem offsetOf?_none (h : c ∉ cs) : offsetOf? c cs = none := if_neg h

theorem offsetOf?_append (h : c ∉ a) (b : List Char) :
    offsetOf? c (a ++ c :: b) = some (width a) := by
  have htake : (a ++ c :: b).takeWhile (· != c) = a := by
    refine takeWhile_append_stop (fun x hx => bne_iff_ne.2 fun he => h (he ▸ hx)) fun x hx => ?_
    obtain rfl := Option.some.inj hx
    exact bne_self_eq_false c
  rw [offsetOf?, if_pos (by simp), htake]

theorem slice_back (a b : List Char) : slice (a ++ b) (width a) (width (a ++ b)) = .ok b := by
  have h := slice_append a b []
  rwa [List.append_nil, ← width_append] at h

theorem behind_append (hc : c.utf8Size = 1) (a b : List Char) :
    behind (a ++ c :: b) (width a) =
      .ok ⟨b, by rw [List.length_append, List.length_cons]; omega⟩ := by
  have h : slice (a ++ c :: b) (width a + 1) (width (a ++ c :: b)) = .ok b := by
    have hback := slice_back (a ++ [c]) b
    rwa [List.append_assoc, width_append a, width_cons, hc] at hback
  rw [behind]
  split
  next heq =>
    cases h.symm.trans heq
    rfl
  next heq => cases h.symm.trans heq

/-- A character is in a text, behind others, or it is not. -/
theorem mem_cases (c : Char) (cs : List Char) :
    c ∉ cs ∨ ∃ a b, c ∉ a ∧ cs = a ++ c :: b := by
  by_cases h : c ∈ cs
  · obtain ⟨a, b, hsplit, hno⟩ := List.eq_append_cons_of_mem h
    exact .inr ⟨a, b, hno, hsplit⟩
  · exact .inl h

end

/-- Putting a message together from slices of its template gives the text of the template. -/
theorem expand_eq (context : Context) (cs : List Char) :
    expand context cs = .ok ((Template.parts cs).flatMap (Template.fill context)) := by
  induction hn : cs.length using Nat.strongRecOn generalizing cs with
  | ind n ih =>
  rw [expand]
  rcases mem_cases '\x7b' cs with hno | ⟨a, b, ha, rfl⟩
  · rw [offsetOf?_none hno, parts_of_not_mem hno, flatMap_fill_char]
  simp only [offsetOf?_append ha, slice_front, behind_append (c := '\x7b') rfl, bind, Except.bind]
  rcases mem_cases '\x7d' b with hno | ⟨key, left, hkey, rfl⟩
  · rw [offsetOf?_none hno, parts_unclosed ha hno, flatMap_fill_char]
    simp only [slice_back]
  have hplaceholder : slice (a ++ '\x7b' :: (key ++ '\x7d' :: left)) (width a)
      (width a + width key + 2) = .ok (Template.Part.placeholder key).source := by
    have h := slice_append a ('\x7b' :: key ++ ['\x7d']) left
    have hwidth : width a + width ('\x7b' :: key ++ ['\x7d']) = width a + width key + 2 := by
      simp only [width_append, width_cons, width_nil, show '\x7b'.utf8Size = 1 from rfl,
        show '\x7d'.utf8Size = 1 from rfl]
      omega
    rw [hwidth, List.append_assoc] at h
    simpa [Template.Part.source] using h
  have hless : left.length < n := by
    simp only [← hn, List.length_cons, List.length_append]
    omega
  have hleft := ih left.length hless left rfl
  rw [parts_placeholder ha hkey]
  simp only [offsetOf?_append hkey, slice_front, behind_append (c := '\x7d') rfl, hplaceholder,
    hleft, List.flatMap_append, flatMap_fill_char, List.flatMap_cons, Template.fill]
  cases context.find? (.ofList key) <;> rfl

/-- A message is the text of a template if there is something to fill it in with. -/
theorem message_eq (p : Problem) : message p = .ok p.message := by
  rw [message]
  simp only [expand_eq]
  cases p <;> rfl

/-- Reporting a finding never fails. -/
theorem report_eq (l : NumberedLine) (f : Finding) : report l f = .ok (l.report f) := by
  obtain ⟨problem, place⟩ := f
  rw [report, message_eq, NumberedLine.report]
  cases place with
  | none =>
    simp only [bind, Except.bind]
    cases problem.context? <;> rfl
  | some s =>
    simp only [column_eq, bind, Except.bind]
    cases problem.context? <;> rfl

end LabelFlow.Guarded
