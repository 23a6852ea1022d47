import LabelFlow.Proofs.Grouping
import LabelFlow.Proofs.Outputs

/-!
# Terms that fall into symbols

`Access.ofTokens_eq_ok_iff`: tokens pass exactly if they are a sequence of units, and the label
accesses are those among the units. Units are what the symbols of a text are cut into
(`Text.Symbols.of_units`, `Text.Symbols.exists_units`).
-/

set_option autoImplicit false

namespace LabelFlow

namespace Symbol

/-- A sequence of units, and the label accesses among them. -/
inductive Units : List Token → List Access → Prop
  | nil : Units [] []
  | single {t : Token} {ts : List Token} {as : List Access}
      (kind : t.kind = .blank ∨ t.kind = .bang ∨ t.kind = .openParen ∨ t.kind = .closeParen)
      (rest : Units ts as) : Units (t :: ts) as
  | double {t u : Token} {ts : List Token} {as : List Access}
      (kind : t.kind = .pipe ∧ u.kind = .pipe ∨ t.kind = .amp ∧ u.kind = .amp)
      (rest : Units ts as) : Units (t :: u :: ts) as
  | literal {t : Token} {ts : List Token} {as : List Access} (kind : t.kind = .word)
      (text : t.text = "TRUE" ∨ t.text = "FALSE") (rest : Units ts as) : Units (t :: ts) as
  | access {t d v : Token} {ts : List Token} {as : List Access} (labelType : t.kind = .word)
      (dot : d.kind = .dot) (value : v.kind = .word) (rest : Units ts as) :
      Units (t :: d :: v :: ts) (⟨.ofToken t, .ofToken v⟩ :: as)

variable {ts us : List Token} {symbols : List Symbol} {as : List Access}

theorem accesses_access_iff {a : Access} : accesses (.access a :: symbols) = .ok as ↔
    ∃ more, accesses symbols = .ok more ∧ as = a :: more := by
  rw [accesses]
  cases accesses symbols with
  | error e => simp [Except.map]
  | ok more => simp [Except.map, eq_comm]

theorem isFault_of_accesses (h : accesses symbols = .ok as) : ∀ s ∈ symbols, s.isFault = false := by
  induction symbols generalizing as with
  | nil => nofun
  | cons s symbols ih =>
    rw [List.forall_mem_cons]
    cases s with
    | fault error start isWord => cases h
    | access a =>
      obtain ⟨more, hmore, -⟩ := accesses_access_iff.1 h
      exact ⟨rfl, ih hmore⟩
    | _ => exact ⟨rfl, ih h⟩

theorem literalValue?_isSome {word : String} :
    (∃ value, literalValue? word = some value) ↔ word = "TRUE" ∨ word = "FALSE" := by
  unfold literalValue?
  by_cases ht : word = "TRUE"
  · simp [ht]
  · by_cases hf : word = "FALSE" <;> simp [ht, hf]

/-- Tokens that make a symbol are a unit. -/
theorem Spelled.units {s : Symbol} (h : Spelled us s) (has : accesses (s :: symbols) = .ok as)
    (rest : ∀ {more : List Access}, accesses symbols = .ok more → Units ts more) :
    Units (us ++ ts) as := by
  cases h with
  | bang kind => exact .single (.inr (.inl kind)) (rest has)
  | openParen kind => exact .single (.inr (.inr (.inl kind))) (rest has)
  | closeParen kind => exact .single (.inr (.inr (.inr kind))) (rest has)
  | @connective op t u first second =>
    cases op with
    | and => exact .double (.inr ⟨first, second⟩) (rest has)
    | or => exact .double (.inl ⟨first, second⟩) (rest has)
  | literal kind text => exact .literal kind (literalValue?_isSome.1 ⟨_, text⟩) (rest has)
  | access labelType dot value =>
    obtain ⟨more, hmore, rfl⟩ := accesses_access_iff.1 has
    exact .access labelType dot value (rest hmore)

theorem Forms.units (h : Forms ts symbols) (has : accesses symbols = .ok as) : Units ts as := by
  induction h generalizing as with
  | nil =>
    cases has
    exact .nil
  | blank kind _ ih => exact .single (.inl kind) (ih has)
  | cons first _ ih => exact first.units has ih

theorem Units.exists_forms (h : Units ts as) :
    ∃ symbols, Forms ts symbols ∧ accesses symbols = .ok as := by
  induction h with
  | nil => exact ⟨[], .nil, rfl⟩
  | single kind _ ih =>
    obtain ⟨symbols, hforms, has⟩ := ih
    obtain hk | hk | hk | hk := kind
    · exact ⟨symbols, .blank hk hforms, has⟩
    · exact ⟨_, .cons (.bang hk) hforms, has⟩
    · exact ⟨_, .cons (.openParen hk) hforms, has⟩
    · exact ⟨_, .cons (.closeParen hk) hforms, has⟩
  | double kind _ ih =>
    obtain ⟨symbols, hforms, has⟩ := ih
    obtain ⟨ht, hu⟩ | ⟨ht, hu⟩ := kind
    · exact ⟨_, .cons (@Spelled.connective .or _ _ ht hu) hforms, has⟩
    · exact ⟨_, .cons (@Spelled.connective .and _ _ ht hu) hforms, has⟩
  | literal kind text _ ih =>
    obtain ⟨symbols, hforms, has⟩ := ih
    obtain ⟨value, hvalue⟩ := literalValue?_isSome.2 text
    exact ⟨_, .cons (.literal kind hvalue) hforms, has⟩
  | access labelType dot value _ ih =>
    obtain ⟨symbols, hforms, has⟩ := ih
    exact ⟨_, .cons (.access labelType dot value) hforms, accesses_access_iff.2 ⟨_, has, rfl⟩⟩

/-- No symbol is a fault exactly if the tokens are a sequence of units. -/
theorem accesses_read_iff : accesses (read ts) = .ok as ↔ Units ts as := by
  refine ⟨fun h => (forms_read (isFault_of_accesses h)).units h, fun h => ?_⟩
  obtain ⟨symbols, hforms, has⟩ := h.exists_forms
  rw [hforms.read_eq, has]

end Symbol

/-- Tokens pass exactly if they are a sequence of units. -/
theorem Access.ofTokens_eq_ok_iff {ts : List Token} {as : List Access} :
    Access.ofTokens ts = .ok as ↔ Symbol.Units ts as :=
  Symbol.accesses_read_iff

/-! ## Characters -/

/-- The characters of the type and of the value. -/
def Access.texts (a : Access) : List Char × List Char :=
  (a.labelType.text.toList, a.value.text.toList)

theorem Access.texts_spelled (o o' : Nat) (w v : List Char) :
    Access.texts ⟨.spelled o w, .spelled o' v⟩ = (w, v) := by
  rw [texts, Name.spelled, Name.spelled, String.toList_ofList, String.toList_ofList]

namespace Text.Symbols

theorem blanks {w cs : List Char} {labels : List (List Char × List Char)} (hw : Blank w)
    (h : Symbols cs labels) : Symbols (w ++ cs) labels := by
  induction w with
  | nil => exact h
  | cons c w ih =>
    obtain ⟨hc, hw⟩ := List.forall_mem_cons.1 hw
    exact .single (.inl hc) (ih hw)

/-- The characters of tokens that are units. -/
theorem of_units {ts : List Token} {as : List Access} (h : Symbol.Units ts as) :
    ∀ {start : Nat} {cs : List Char}, Token.ofText start cs = ts →
      Symbols cs (as.map Access.texts) := by
  induction h with
  | nil =>
    intro start cs hts
    rw [Token.ofText_eq_nil.1 hts]
    exact .nil
  | single kind _ ih =>
    intro start cs hts
    obtain hk | hk | hk | hk := kind
    · obtain ⟨x, rest, rfl, -, hrest, -, hx, -⟩ := Token.ofText_eq_cons hts
      exact .blanks (fun c hc => Kind.ofChar_eq_blank.1 ((hx c hc).trans hk)) (ih hrest.symm)
    · obtain ⟨rest, rfl, -, hrest⟩ := Token.punct_of_ofText_eq_cons rfl hts hk
      exact .single (.inr (.inl rfl)) (ih hrest.symm)
    · obtain ⟨rest, rfl, -, hrest⟩ := Token.punct_of_ofText_eq_cons rfl hts hk
      exact .single (.inr (.inr (.inl rfl))) (ih hrest.symm)
    · obtain ⟨rest, rfl, -, hrest⟩ := Token.punct_of_ofText_eq_cons rfl hts hk
      exact .single (.inr (.inr (.inr rfl))) (ih hrest.symm)
  | double kind _ ih =>
    intro start cs hts
    obtain ⟨ht, hu⟩ | ⟨ht, hu⟩ := kind
    · obtain ⟨rest, rfl, -, hrest⟩ := Token.punct_of_ofText_eq_cons rfl hts ht
      obtain ⟨rest, rfl, -, hrest⟩ := Token.punct_of_ofText_eq_cons rfl hrest.symm hu
      exact .double (.inl rfl) (ih hrest.symm)
    · obtain ⟨rest, rfl, -, hrest⟩ := Token.punct_of_ofText_eq_cons rfl hts ht
      obtain ⟨rest, rfl, -, hrest⟩ := Token.punct_of_ofText_eq_cons rfl hrest.symm hu
      exact .double (.inr rfl) (ih hrest.symm)
  | literal kind text _ ih =>
    intro start cs hts
    obtain ⟨w, rest, rfl, hw, hap, hname, -, hrest⟩ := Token.word_of_ofText_eq_cons hts kind
    have htext : _ = String.ofList w := congrArg Name.text hname
    refine .literal ?_ (hw.apart_iff.1 hap) (ih hrest.symm)
    rw [← String.toList_ofList (l := w), ← htext]
    exact text.imp (congrArg String.toList) (congrArg String.toList)
  | access labelType dot value _ ih =>
    intro start cs hts
    obtain ⟨w, rest, rfl, hw, -, hname, -, hrest⟩ := Token.word_of_ofText_eq_cons hts labelType
    obtain ⟨rest, rfl, -, hrest⟩ := Token.punct_of_ofText_eq_cons rfl hrest.symm dot
    obtain ⟨v, rest, rfl, hv, hap, hname', -, hrest⟩ :=
      Token.word_of_ofText_eq_cons hrest.symm value
    rw [hname, hname', List.map_cons, Access.texts_spelled]
    exact .access hw hv (hv.apart_iff.1 hap) (ih hrest.symm)

end Text.Symbols

/-- A blank in front makes no difference to what is read. -/
theorem Symbol.read_blank_cons {c : Char} (hc : Text.isBlank c = true) (start : Nat)
    (cs : List Char) : read (Token.ofText start (c :: cs)) =
      read (Token.ofText (start + c.utf8Size) cs) := by
  have hk := Kind.ofChar_eq_blank.2 hc
  unfold Token.ofText
  rw [Lexeme.ofText_cons]
  cases Lexeme.ofText cs with
  | nil =>
    rw [Lexeme.push, Token.place_cons, read_blank hk]
    rfl
  | cons l ls =>
    rw [Lexeme.push]
    split
    · rename_i hrun
      have hl : l.kind = .blank := by
        rw [Bool.and_eq_true, beq_iff_eq] at hrun
        rw [hrun.2, hk]
      rw [Token.place_cons, Token.place_cons, read_blank hl, read_blank hl, Text.width_cons, Nat.add_assoc]
    · rw [Token.place_cons, read_blank hk]
      rfl

/-- Symbols are units when they are cut into tokens. -/
theorem Text.Symbols.exists_units {cs : List Char} {labels : List (List Char × List Char)}
    (h : Text.Symbols cs labels) (start : Nat) :
    ∃ as, Symbol.Units (Token.ofText start cs) as ∧ as.map Access.texts = labels := by
  induction h generalizing start with
  | nil => exact ⟨[], .nil, rfl⟩
  | @single c cs labels symbol _ ih =>
    obtain ⟨as, has, hlabels⟩ := ih (start + c.utf8Size)
    obtain hc | hc | hc | hc := symbol
    · rw [← Symbol.accesses_read_iff, ← Symbol.read_blank_cons hc, Symbol.accesses_read_iff] at has
      exact ⟨as, has, hlabels⟩
    all_goals
      subst hc
      refine ⟨as, ?_, hlabels⟩
    · rw [Token.ofText_cons (k := .bang) rfl]
      exact .single (.inr (.inl rfl)) has
    · rw [Token.ofText_cons (k := .openParen) rfl]
      exact .single (.inr (.inr (.inl rfl))) has
    · rw [Token.ofText_cons (k := .closeParen) rfl]
      exact .single (.inr (.inr (.inr rfl))) has
  | double symbol _ ih =>
    obtain ⟨as, has, hlabels⟩ := ih (start + 1 + 1)
    refine ⟨as, ?_, hlabels⟩
    obtain rfl | rfl := symbol
    · rw [Token.ofText_cons (k := .pipe) rfl, Token.ofText_cons (k := .pipe) rfl]
      exact .double (.inl ⟨rfl, rfl⟩) has
    · rw [Token.ofText_cons (k := .amp) rfl, Token.ofText_cons (k := .amp) rfl]
      exact .double (.inr ⟨rfl, rfl⟩) has
  | @literal w cs labels symbol ends _ ih =>
    obtain ⟨as, has, hlabels⟩ := ih (start + Text.width w)
    have hw : Text.Word w := by
      obtain rfl | rfl := symbol <;> decide
    refine ⟨as, ?_, hlabels⟩
    rw [Token.ofText_word hw (hw.apart_iff.2 ends)]
    refine .literal rfl ?_ has
    obtain rfl | rfl := symbol
    · exact .inl rfl
    · exact .inr rfl
  | @access w v cs labels hw hv ends _ ih =>
    obtain ⟨as, has, hlabels⟩ := ih (start + Text.width w + 1 + Text.width v)
    have hunit := Symbol.Units.access
      (t := ⟨.word, .ofList w, start⟩) (d := ⟨.dot, .ofList ['.'], start + Text.width w⟩)
      (v := ⟨.word, .ofList v, start + Text.width w + 1⟩) rfl rfl rfl has
    rw [Token.ofText_word hw (.of_head rfl), Token.ofText_cons (k := .dot) rfl,
      Token.ofText_word hv (hv.apart_iff.2 ends)]
    refine ⟨_, hunit, ?_⟩
    rw [Name.ofToken_mk, Name.ofToken_mk, List.map_cons, Access.texts_spelled, hlabels]

end LabelFlow
