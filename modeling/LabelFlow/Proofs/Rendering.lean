import LabelFlow.Proofs.GuardedReport
import LabelFlow.Proofs.Unambiguity

/-!
# Filling in a template

A template falls in one way into literal texts with a placeholder behind each and what is left
behind the last one, where each placeholder runs from the first opening brace to the next closing
one (`Template.Split.Leftmost`). `render_exact`: filling it in replaces each placeholder that has a
value and leaves everything else as it is, so no value is read as a part of the template. The
induction is on the placeholders: cutting a template yields the text before the first one, its key,
and then the parts of what stands behind it.
-/

set_option autoImplicit false

namespace LabelFlow.Template

/-- Literal texts, each with the key of the placeholder behind it, and the text behind them all. -/
structure Split where
  filled : List (List Char × List Char)
  rest : List Char
deriving DecidableEq, Repr

namespace Split

/-- The value of a key, or else the placeholder with the key. -/
def inserted (value? : String → Option String) (key : List Char) : List Char :=
  match value? (.ofList key) with
  | some value => value.toList
  | none => '\x7b' :: key ++ ['\x7d']

/-- The text in which all placeholders that have a value are replaced by it. -/
def fill (value? : String → Option String) (s : Split) : List Char :=
  s.filled.flatMap (fun e => e.1 ++ inserted value? e.2) ++ s.rest

/-- The text with all placeholders in their places. -/
def source (s : Split) : List Char := s.fill fun _ => none

/-- Placeholders begin at the first opening brace and end at the next closing one, and the rest has
no closing brace behind its first opening one. -/
structure Leftmost (s : Split) : Prop where
  text : ∀ e ∈ s.filled, '\x7b' ∉ e.1
  key : ∀ e ∈ s.filled, '\x7d' ∉ e.2
  rest : ∀ a b, '\x7b' ∉ a → s.rest = a ++ '\x7b' :: b → '\x7d' ∉ b

theorem fill_cons (value? : String → Option String) (text key : List Char)
    (es : List (List Char × List Char)) (rest : List Char) :
    fill value? ⟨(text, key) :: es, rest⟩ =
      text ++ (inserted value? key ++ fill value? ⟨es, rest⟩) := by
  simp [fill]

theorem source_cons (text key : List Char) (es : List (List Char × List Char))
    (rest : List Char) : source ⟨(text, key) :: es, rest⟩ =
      text ++ '\x7b' :: (key ++ '\x7d' :: source ⟨es, rest⟩) := by
  rw [source, fill_cons]
  simp [inserted, source]

section
variable {text key rest : List Char} {es : List (List Char × List Char)}

theorem Leftmost.tail {e : List Char × List Char} (h : Leftmost ⟨e :: es, rest⟩) :
    Leftmost ⟨es, rest⟩ :=
  ⟨fun x hx => h.text x (List.mem_cons_of_mem e hx), fun x hx => h.key x (List.mem_cons_of_mem e hx),
    h.rest⟩

theorem Leftmost.cons (htext : '\x7b' ∉ text) (hkey : '\x7d' ∉ key) (h : Leftmost ⟨es, rest⟩) :
    Leftmost ⟨(text, key) :: es, rest⟩ :=
  ⟨List.forall_mem_cons.2 ⟨htext, h.text⟩, List.forall_mem_cons.2 ⟨hkey, h.key⟩, h.rest⟩

end

/-- Every text can be split. -/
theorem exists_leftmost (cs : List Char) : ∃ s : Split, s.Leftmost ∧ s.source = cs := by
  induction hn : cs.length using Nat.strongRecOn generalizing cs with
  | ind n ih =>
  rcases Guarded.mem_cases '\x7b' cs with hno | ⟨a, b, ha, rfl⟩
  · refine ⟨⟨[], cs⟩, ⟨nofun, nofun, fun a b _ hcs => absurd ?_ hno⟩, rfl⟩
    simp only at hcs
    simp [hcs]
  rcases Guarded.mem_cases '\x7d' b with hno | ⟨key, left, hkey, rfl⟩
  · refine ⟨⟨[], a ++ '\x7b' :: b⟩, ⟨nofun, nofun, fun a' b' ha' hcs => ?_⟩, rfl⟩
    obtain ⟨-, rfl⟩ := cut_unique_first ha ha' hcs
    exact hno
  · have hless : left.length < n := by
      simp only [← hn, List.length_append, List.length_cons]
      omega
    obtain ⟨⟨es, rest⟩, hs, rfl⟩ := ih left.length hless left rfl
    exact ⟨⟨(a, key) :: es, rest⟩, hs.cons ha hkey, source_cons a key es rest⟩

/-- No text can be split in two ways. -/
theorem source_inj {s s' : Split} (hs : s.Leftmost) (hs' : s'.Leftmost)
    (h : s.source = s'.source) : s = s' := by
  obtain ⟨es, rest⟩ := s
  obtain ⟨es', rest'⟩ := s'
  -- a split without a placeholder has no closing brace where the other one has its first
  have hclosed {rest text key more : List Char} (hrest : Leftmost ⟨[], rest⟩)
      (htext : '\x7b' ∉ text) : rest ≠ text ++ '\x7b' :: (key ++ '\x7d' :: more) :=
    fun hcs => hrest.rest _ _ htext hcs (by simp)
  induction es generalizing es' with
  | nil =>
    cases es' with
    | nil => exact congrArg (Split.mk []) h
    | cons e' es' =>
      obtain ⟨text', key'⟩ := e'
      rw [source_cons] at h
      exact absurd h (hclosed hs (hs'.text _ List.mem_cons_self))
  | cons e es ih =>
    obtain ⟨text, key⟩ := e
    rw [source_cons] at h
    cases es' with
    | nil => exact absurd h.symm (hclosed hs' (hs.text _ List.mem_cons_self))
    | cons e' es' =>
      obtain ⟨text', key'⟩ := e'
      rw [source_cons] at h
      obtain ⟨rfl, hbehind⟩ := cut_unique_first (hs.text _ List.mem_cons_self)
        (hs'.text _ List.mem_cons_self) h
      obtain ⟨rfl, htail⟩ := cut_unique_first (hs.key _ List.mem_cons_self)
        (hs'.key _ List.mem_cons_self) hbehind
      cases ih hs.tail es' hs'.tail htail
      rfl

/-- The parts of a text are filled in as its split is. -/
theorem flatMap_fill_parts {s : Split} (hs : s.Leftmost) (context : Context) :
    (parts s.source).flatMap (Template.fill context) = s.fill context.find? := by
  obtain ⟨es, rest⟩ := s
  induction es with
  | nil =>
    have hparts : parts rest = rest.map .char := by
      rcases Guarded.mem_cases '\x7b' rest with hno | ⟨a, b, ha, rfl⟩
      · exact Guarded.parts_of_not_mem hno
      · exact Guarded.parts_unclosed ha (hs.rest a b ha rfl)
    have hsource : source ⟨[], rest⟩ = rest := rfl
    rw [hsource, hparts, Guarded.flatMap_fill_char]
    rfl
  | cons e es ih =>
    obtain ⟨text, key⟩ := e
    rw [source_cons, Guarded.parts_placeholder (hs.text _ List.mem_cons_self)
      (hs.key _ List.mem_cons_self), List.flatMap_append, List.flatMap_cons,
      Guarded.flatMap_fill_char, ih hs.tail, fill_cons]
    rfl

end Split

/-- A template is split into literal texts and placeholders in exactly one way, and its text in any
context is that of the split: each placeholder with a value is replaced by the value, all else stays
as it is. Putting the text together from slices of the template never fails and gives the same. With
an empty context this is the template. -/
theorem render_exact (template : String) : ∃ s : Split,
    (∀ s' : Split, s'.Leftmost ∧ s'.source = template.toList ↔ s' = s) ∧
    (∀ context, render context template = .ofList (s.fill context.find?) ∧
      Guarded.expand context template.toList = .ok (s.fill context.find?)) ∧
    render .empty template = template := by
  obtain ⟨s, hs, hsource⟩ := Split.exists_leftmost template.toList
  have hfill (context : Context) : (parts template.toList).flatMap (fill context) =
      s.fill context.find? := by
    rw [← hsource]
    exact Split.flatMap_fill_parts hs context
  refine ⟨s, fun s' => ⟨fun h => ?_, ?_⟩, fun context => ⟨?_, ?_⟩, ?_⟩
  · exact Split.source_inj h.1 hs (h.2.trans hsource.symm)
  · rintro rfl
    exact ⟨hs, hsource⟩
  · rw [render, hfill]
  · rw [Guarded.expand_eq, hfill]
  · have hempty : s.fill (Context.find? .empty) = s.source := rfl
    rw [render, hfill, hempty, hsource, String.ofList_toList]

-- a value with braces is not filled in again, and a key may have an opening brace
example : render (.ofList [("a", "\x7bb\x7d"), ("b", "x"), ("\x7bb", "y")])
    "\x7ba\x7d\x7b\x7bb\x7d\x7d\x7bc\x7d\x7bb" = "\x7bb\x7dy\x7d\x7bc\x7d\x7bb" := by decide

end LabelFlow.Template
