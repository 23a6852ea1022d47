import LabelFlow.Proofs.Distinctness
import LabelFlow.Proofs.GuardedReport
import LabelFlow.Proofs.GuardedSearch
import LabelFlow.Proofs.GuardedTree
import LabelFlow.Proofs.TermAccesses

/-!
# Validating with operations that may fail

A line is cut into tokens, read as a statement, checked and reported on, all with operations that
may fail: the loops of the checks look names up in slices of the tokens and make diagnostics of what
they find. A step of a loop does what the step of the loop that runs does, so the loop does
(`Guarded.checkAccesses_eq`, `Guarded.reportUnavailable_eq`). Nothing fails, and a text is validated
as `Validator.validate` validates it (`Guarded.validate_eq`).
-/

set_option autoImplicit false

namespace LabelFlow.Guarded

open Text

/-! ## Places -/

/-- The places where a name occurs. -/
def placesOf (ts : List Token) (name : String) (surrounding : Surrounding) :
    Except Misuse (List Span) := do
  let starts ← startsOf ts name surrounding
  starts.mapM fun p => span p (p + width name.toList)

/-- The first place where a name stands as a whole identifier. -/
def firstPlaceOf (ts : List Token) (name : String) : Except Misuse (Option Span) := do
  let starts ← startsOf ts name .identifier
  match starts with
  | [] => .ok none
  | p :: _ => do
    let place ← span p (p + width name.toList)
    .ok (some place)

section
variable {ts : List Token} (h : ∀ t ∈ ts, t.text ≠ "")
include h

theorem placesOf_eq (name : String) (surrounding : Surrounding) :
    placesOf ts name surrounding = .ok (Token.placesOf ts name surrounding) := by
  rw [placesOf, startsOf_eq h]
  exact mapM_ok fun p _ => span_eq (Nat.le_add_right ..)

theorem firstPlaceOf_eq (name : String) :
    firstPlaceOf ts name = .ok (Token.firstPlaceOf ts name) := by
  rw [firstPlaceOf, startsOf_eq h, Token.firstPlaceOf, Token.placesOf]
  simp only [bind, Except.bind]
  cases Token.startsOf ts name .identifier with
  | nil => rfl
  | cons p starts => simp only [span_eq (Nat.le_add_right ..), List.map_cons, List.head?_cons]

end

theorem text_ne_of_inside {line : String} {s : Span} {t : Token}
    (h : t ∈ Token.inside (Token.ofLine line) s) : t.text ≠ "" :=
  Token.text_ne_of_mem ((Token.inside_sublist _ s).subset h)

/-! ## Loops -/

/-- Results that are all there are there one after the other. -/
theorem foldlM_ok {α β : Type} {f : β → α → Except Misuse β} {g : β → α → β}
    (h : ∀ b x, f b x = .ok (g b x)) (b : β) (xs : List α) :
    xs.foldlM f b = .ok (xs.foldl g b) := by
  induction xs generalizing b with
  | nil => rfl
  | cons x xs ih =>
    rw [List.foldlM_cons, h]
    exact ih (g b x)

/-- Goes through names of inputs and reports those that are not available. -/
def reportUnavailable (l : NumberedLine)
    (push : List Diagnostic → Diagnostic → List Diagnostic) (available : List String)
    (region : List Token) (out : List Diagnostic) : List String → Except Misuse (List Diagnostic)
  | [] => .ok out
  | name :: names =>
    if available.contains name then reportUnavailable l push available region out names
    else do
      let place ← firstPlaceOf region name
      let d ← report l ⟨.unknownInput name, place⟩
      reportUnavailable l push available region (push out d) names

/-- The diagnostics of one finding, where nothing else is said. -/
def alone (l : NumberedLine) (q : Inquiry) (f : Finding) :
    ExceptT OwnerError (Except Misuse) (List Diagnostic × Inquiry) := do
  let d ← report l f
  pure ([d], q)

variable {l : NumberedLine} {region : List Token}

theorem reportUnavailable_eq (h : ∀ t ∈ region, t.text ≠ "")
    (push : List Diagnostic → Diagnostic → List Diagnostic) (available : List String)
    (out : List Diagnostic) (names : List String) :
    reportUnavailable l push available region out names =
      .ok (l.reportUnavailable push available region out names) := by
  induction names generalizing out with
  | nil => rfl
  | cons name names ih =>
    rw [reportUnavailable, NumberedLine.reportUnavailable]
    by_cases havailable : available.contains name = true
    · rw [if_pos havailable, if_pos havailable, ih]
    · rw [if_neg havailable, if_neg havailable, firstPlaceOf_eq h]
      simp only [bind, Except.bind, report_eq, ih]

theorem alone_eq (l : NumberedLine) (q : Inquiry) (f : Finding) :
    alone l q f = decided (.ok ([l.report f], q)) := by
  rw [alone, report_eq]
  rfl

/-! ## Forwarding statements -/

/-- Every place of each name in a region. -/
def reportRepeated (l : NumberedLine) (region : List Token) (names : List String) :
    Except Misuse (List Diagnostic) := do
  let found ← names.mapM fun name => do
    let places ← placesOf region name .identifier
    places.mapM fun s => report l ⟨.duplicateInput name, some s⟩
  .ok found.flatten

/-- Checks a Forwarding statement. -/
def checkForwarding (l : NumberedLine) (ts : List Token) (owner : Owner) (q : Inquiry)
    (f : Forwarding) : ExceptT OwnerError (Except Misuse) (List Diagnostic × Inquiry) := do
  if f.inputs.names.all Name.isAbsent then alone l q (.wholeLine .forwardWithoutInputs)
  else if f.inputs.names.any Name.isAbsent then alone l q ⟨.trailingComma, f.inputs.blamedComma⟩
  else
    let region ← inside ts f.inputs.span
    let names := Name.distinct f.inputs.names
    let found ← reportRepeated l region
      (names.filter fun name => 1 < (f.inputs.names.map Name.text).count name)
    if found ≠ [] then pure (found, q)
    else
      let (available, q) ← decided (q.ask owner)
      let found ← reportUnavailable l pushLast available region [] names
      pure (found, q)

theorem reportRepeated_eq (h : ∀ t ∈ region, t.text ≠ "") (names : List String) :
    reportRepeated l region names = .ok (Forwarding.reportRepeated l region names) := by
  have hname : ∀ name ∈ names, (do
      let places ← placesOf region name .identifier
      places.mapM fun s => report l ⟨.duplicateInput name, some s⟩) =
        Except.ok ((Token.placesOf region name .identifier).map fun s =>
          l.report ⟨.duplicateInput name, some s⟩) := by
    intro name _
    rw [placesOf_eq h]
    exact mapM_ok fun s _ => report_eq l _
  rw [reportRepeated, mapM_ok hname, Forwarding.reportRepeated, List.flatMap_def]
  rfl

theorem checkForwarding_eq (l : NumberedLine) (owner : Owner) (q : Inquiry) (f : Forwarding) :
    checkForwarding l l.tokens owner q f = decided (f.check l owner q) := by
  rw [checkForwarding, Forwarding.check]
  split
  next => exact alone_eq l q _
  split
  next => exact alone_eq l q _
  rw [NumberedLine.tokens, inside_line, lift_bind]
  dsimp only
  rw [reportRepeated_eq fun _ => text_ne_of_inside, lift_bind]
  split
  next => rfl
  refine decided_bind ?_
  rintro ⟨available, q⟩
  dsimp only
  rw [reportUnavailable_eq fun _ => text_ne_of_inside]
  rfl

/-! ## Assignment statements -/

/-- The first parenthesis that closes nothing, or else one that is never closed, where `depth`
parentheses are open before the tokens. -/
def parens (depth : Nat) : List Token → Except Misuse (Option Finding)
  | [] => .ok (if depth = 0 then none else some (.wholeLine .missingClosingParen))
  | t :: ts =>
    match t.kind with
    | .openParen => parens (depth + 1) ts
    | .closeParen =>
      if depth = 0 then do
        let place ← placeOf t
        .ok (some ⟨.missingOpeningParen, some place⟩)
      else do
        let depth ← pred depth
        parens depth ts
    | _ => parens depth ts

/-- Adds a diagnostic of a problem for each place of a name. -/
def reportPlaces (l : NumberedLine) (region : List Token) (p : Problem) (name : String)
    (surrounding : Surrounding) (out : List Diagnostic) : Except Misuse (List Diagnostic) := do
  let places ← placesOf region name surrounding
  places.foldlM (fun out s => do
    let d ← report l ⟨p, some s⟩
    .ok (pushUnique out d)) out

/-- Looks a label up. -/
def checkLabel (l : NumberedLine) (catalog : Catalog) (region : List Token)
    (labelType value : String) (out : List Diagnostic) : Except Misuse (List Diagnostic) :=
  match catalog.find? labelType with
  | none => reportPlaces l region (.unknownLabelType labelType) labelType .beforeDot out
  | some t =>
    if value = "" ∨ t.hasValue value then .ok out
    else reportPlaces l region (.unknownLabelValue labelType value) value .afterDot out

/-- Checks the labels of the term that have not been seen before. -/
def checkAccesses (l : NumberedLine) (catalog : Catalog) (region : List Token)
    (seen : List (String × String)) (out : List Diagnostic) :
    List Access → Except Misuse (List Diagnostic)
  | [] => .ok out
  | a :: as => do
    let label := (a.labelType.text, a.value.text)
    if seen.contains label then checkAccesses l catalog region seen out as
    else
      let out ← checkLabel l catalog region a.labelType.text a.value.text out
      checkAccesses l catalog region (seen ++ [label]) out as

/-- Checks the labels of the term, if there is a catalog. -/
def checkTerm (l : NumberedLine) (catalog : Option Catalog) (region : List Token)
    (accesses : List Access) : Except Misuse (List Diagnostic) :=
  match catalog with
  | some catalog => checkAccesses l catalog region [] [] accesses
  | none => .ok []

/-- Checks the label of an output, if there is a catalog, and that nothing follows it. -/
def checkOutput (l : NumberedLine) (catalog : Option Catalog) (region : List Token)
    (out : List Diagnostic) (o : OutputLabel) : Except Misuse (List Diagnostic) := do
  let checked ← match catalog with
    | some catalog => checkLabel l catalog region o.labelType.text o.valueText out
    | none => .ok out
  if o.extra.isEmpty then .ok checked
  else
    let d ← report l (.wholeLine .invalidLabelDefinition)
    .ok (pushUnique checked d)

/-- Checks the outputs one after the other. -/
def checkOutputs (l : NumberedLine) (catalog : Option Catalog) (region : List Token)
    (out : List Diagnostic) (os : List OutputLabel) : Except Misuse (List Diagnostic) :=
  os.foldlM (checkOutput l catalog region) out

/-- Checks an Assignment statement. -/
def checkAssignment (l : NumberedLine) (ts : List Token) (catalog : Option Catalog) (owner : Owner)
    (q : Inquiry) (a : Assignment) :
    ExceptT OwnerError (Except Misuse) (List Diagnostic × Inquiry) := do
  match ← parens 0 ts with
  | some finding => alone l q finding
  | none =>
    if a.term.text.toList.all isBlank then alone l q (.wholeLine .missingTerm)
    else
      let term ← inside ts a.term.span
      match ← (scan term 0).run with
      | .error _ => alone l q (.wholeLine .invalidTerm)
      | .ok accesses =>
        let region ← inside ts a.labelSpan
        let ofTerm ← checkTerm l catalog region accesses
        let (available, q) ← decided (q.ask owner)
        let inputRegion ← inside ts a.inputSpan
        let ofInputs ← reportUnavailable l pushUnique available inputRegion ofTerm
          (Name.distinct a.inputs)
        let out ← checkOutputs l catalog region ofInputs a.outputs
        pure (out, q)

/-- No more parentheses are closed than are open. -/
theorem parens_eq (depth : Nat) (ts : List Token) :
    parens depth ts = .ok (Assignment.parenFinding depth ts) := by
  induction ts generalizing depth with
  | nil => rfl
  | cons t ts ih =>
    unfold parens Assignment.parenFinding
    cases t.kind with
    | openParen => exact ih (depth + 1)
    | closeParen =>
      cases depth with
      | zero =>
        rw [placeOf_eq]
        rfl
      | succ depth => exact ih depth
    | _ => exact ih depth

section
variable (h : ∀ t ∈ region, t.text ≠ "")
include h

theorem reportPlaces_eq (p : Problem) (name : String) (surrounding : Surrounding)
    (out : List Diagnostic) : reportPlaces l region p name surrounding out =
      .ok (Assignment.reportPlaces l region p name surrounding out) := by
  rw [reportPlaces, placesOf_eq h]
  refine foldlM_ok (fun out s => ?_) out _
  rw [report_eq]
  rfl

theorem checkLabel_eq (catalog : Catalog) (labelType value : String) (out : List Diagnostic) :
    checkLabel l catalog region labelType value out =
      .ok (Assignment.checkLabel l catalog region labelType value out) := by
  unfold checkLabel Assignment.checkLabel
  cases catalog.find? labelType with
  | none => exact reportPlaces_eq h _ _ _ out
  | some t =>
    dsimp only
    split
    next => rfl
    next => exact reportPlaces_eq h _ _ _ out

theorem checkAccesses_eq (catalog : Catalog) (seen : List (String × String))
    (out : List Diagnostic) (as : List Access) : checkAccesses l catalog region seen out as =
      .ok (Assignment.checkAccesses l catalog region seen out as) := by
  induction as generalizing seen out with
  | nil => rfl
  | cons a as ih =>
    rw [checkAccesses, Assignment.checkAccesses]
    by_cases hseen : seen.contains (a.labelType.text, a.value.text) = true
    · simp only [if_pos hseen, ih]
    · simp only [if_neg hseen, checkLabel_eq h, bind, Except.bind, ih]

theorem checkTerm_eq (catalog : Option Catalog) (accesses : List Access) :
    checkTerm l catalog region accesses =
      .ok (Assignment.checkTerm l catalog region accesses) := by
  cases catalog with
  | none => rfl
  | some catalog => exact checkAccesses_eq h catalog [] [] accesses

theorem checkOutput_eq (catalog : Option Catalog) (out : List Diagnostic) (o : OutputLabel) :
    checkOutput l catalog region out o = .ok (Assignment.checkOutput l catalog region out o) := by
  unfold checkOutput Assignment.checkOutput
  cases catalog with
  | none =>
    simp only [report_eq, bind, Except.bind]
    split <;> rfl
  | some catalog =>
    simp only [checkLabel_eq h, report_eq, bind, Except.bind]
    split <;> rfl

theorem checkOutputs_eq (catalog : Option Catalog) (out : List Diagnostic)
    (os : List OutputLabel) : checkOutputs l catalog region out os =
      .ok (os.foldl (Assignment.checkOutput l catalog region) out) :=
  foldlM_ok (checkOutput_eq h catalog) out os

end

theorem checkAssignment_eq (l : NumberedLine) (catalog : Option Catalog) (owner : Owner)
    (q : Inquiry) (a : Assignment) :
    checkAssignment l l.tokens catalog owner q a = decided (a.check l catalog owner q) := by
  rw [checkAssignment, Assignment.check, parens_eq, lift_bind]
  cases Assignment.parenFinding 0 l.tokens with
  | some finding => exact alone_eq l q finding
  | none =>
    dsimp only
    split
    next => exact alone_eq l q _
    rw [NumberedLine.tokens, inside_line, lift_bind, scan_eq, List.drop_zero, decided,
      ExceptT.run_mk, lift_bind, Access.ofTokens]
    cases Symbol.accesses (Symbol.read (Token.inside (Token.ofLine l.text) a.term.span)) with
    | error e => exact alone_eq l q _
    | ok accesses =>
      dsimp only
      rw [inside_line, lift_bind, checkTerm_eq fun _ => text_ne_of_inside, lift_bind]
      refine decided_bind ?_
      rintro ⟨available, q⟩
      dsimp only
      rw [inside_line, lift_bind, reportUnavailable_eq fun _ => text_ne_of_inside, lift_bind,
        checkOutputs_eq fun _ => text_ne_of_inside]
      rfl

/-! ## Lines -/

/-- Checks a line. -/
def check (v : Validator) (owner : Owner) (q : Inquiry) (l : NumberedLine) :
    ExceptT OwnerError (Except Misuse) (List Diagnostic × Inquiry) :=
  match LineForm.ofLine l.text with
  | .blank | .comment => pure ([], q)
  | form => do
    let ts ← lex l.text.toList 0 l.text.toList
    match form with
    | .forwarding =>
      match ← (forwarding v.config.minNameLength l.text ts).run with
      | none => alone l q (.wholeLine .invalidForwarding)
      | some f => checkForwarding l ts owner q f
    | .assignment =>
      match ← (assignment v.config.minNameLength l.text ts).run with
      | none => alone l q (.wholeLine .invalidAssignment)
      | some a => checkAssignment l ts v.catalog owner q a
    | _ => alone l q (.wholeLine .unknownStatement)

theorem check_eq (v : Validator) (owner : Owner) (q : Inquiry) (l : NumberedLine) :
    check v owner q l = decided (v.check owner q l) := by
  rw [check, Validator.check, lex_line]
  cases LineForm.ofLine l.text with
  | blank | comment => rfl
  | unknown =>
    dsimp only
    rw [lift_bind]
    exact alone_eq l q _
  | forwarding =>
    dsimp only
    rw [lift_bind, forwarding_eq, sure, OptionT.run_mk, lift_bind]
    cases Forwarding.parse? v.config.minNameLength l.text with
    | none => exact alone_eq l q _
    | some f => exact checkForwarding_eq l owner q f
  | assignment =>
    dsimp only
    rw [lift_bind, assignment_eq, sure, OptionT.run_mk, lift_bind]
    cases Assignment.parse? v.config.minNameLength l.text with
    | none => exact alone_eq l q _
    | some a => exact checkAssignment_eq l v.catalog owner q a

/-- The diagnostics of a numbered line, each with columns. -/
def visit (v : Validator) (owner : Owner) (q : Inquiry) (number : Nat) (line : String) :
    ExceptT OwnerError (Except Misuse) (List Diagnostic × Inquiry) := do
  let (found, q) ← check v owner q ⟨number, line⟩
  pure (found.map fun d => d.fillColumns line.length, q)

/-- The diagnostics of lines, the first of which has the given number. -/
def visitLines (v : Validator) (owner : Owner) (q : Inquiry) (number : Nat) :
    List String → ExceptT OwnerError (Except Misuse) (List Diagnostic × Inquiry)
  | [] => pure ([], q)
  | line :: lines => do
    let (found, q) ← visit v owner q number line
    let (more, q) ← visitLines v owner q (number + 1) lines
    pure (found ++ more, q)

/-- Validates a text for an owner. -/
def validate (v : Validator) (text : String) (owner : Owner) :
    ExceptT OwnerError (Except Misuse) Outcome := do
  let (diagnostics, q) ← visitLines v owner .start 0 (Text.lines text)
  pure ⟨diagnostics, q.fetches⟩

theorem visit_eq (v : Validator) (owner : Owner) (q : Inquiry) (number : Nat) (line : String) :
    visit v owner q number line = decided (v.visit owner q number line) := by
  rw [visit, Validator.visit, check_eq]
  exact decided_bind fun _ => rfl

theorem visitLines_eq (v : Validator) (owner : Owner) (q : Inquiry) (number : Nat)
    (lines : List String) :
    visitLines v owner q number lines = decided (v.visitLines owner q number lines) := by
  induction lines generalizing q number with
  | nil => rfl
  | cons line lines ih =>
    rw [visitLines, Validator.visitLines, visit_eq]
    refine decided_bind ?_
    rintro ⟨found, q⟩
    dsimp only
    rw [ih]
    exact decided_bind fun _ => rfl

/-- Validating a text never fails in an operation. -/
theorem validate_eq (v : Validator) (text : String) (owner : Owner) :
    validate v text owner = decided (v.validate text owner) := by
  rw [validate, Validator.validate, visitLines_eq]
  exact decided_bind fun _ => rfl

end LabelFlow.Guarded
