import Mathlib.Data.List.Basic
import LabelFlow.Proofs.JsonGrammar
import LabelFlow.Proofs.JsonReading

/-!
# The library that runs

`Json.Library.builtIn` is a library as it is relied on (`conforms_builtIn`). Its reader cuts every
text of a value into the lexemes of the value (`Denotes.cutInto`), however its strings are escaped
and wherever it has blanks, and so reads it. What it writes denotes the value, since the escape of a
character stands for the character (`Printable.written`).
-/

set_option autoImplicit false

namespace LabelFlow.Json

/-! ## Numbers -/

theorem isWordChar_of_isDigit {c : Char} (h : c.isDigit = true) : isWordChar c = true := by
  simp [isWordChar, Char.isAlphanum, h]

theorem Digits.isWordChar {cs : List Char} (h : Digits cs) : ∀ c ∈ cs, isWordChar c = true :=
  fun c hc => isWordChar_of_isDigit (h.digits c hc)

theorem Digits.areDigits {cs : List Char} (h : Digits cs) : areDigits cs = true := by
  rw [Json.areDigits, Bool.and_eq_true, List.all_eq_true]
  exact ⟨by simpa using h.ne_nil, h.digits⟩

/-- A sign is no digit. -/
theorem Digits.head_ne {d : Char} {ds : List Char} (h : Digits (d :: ds)) :
    ¬ (d = '+' ∨ d = '-') := by
  have hd := h.digits d (.head _)
  rintro (rfl | rfl) <;> exact absurd hd (by decide)

theorem Exponent.isWordChar {cs : List Char} (h : Exponent cs) : ∀ c ∈ cs, isWordChar c = true := by
  have hletter : ∀ {e : Char}, e = 'e' ∨ e = 'E' → Json.isWordChar e = true := by
    rintro _ (rfl | rfl) <;> decide
  cases h with
  | none => nofun
  | plain he hd => exact List.forall_mem_cons.2 ⟨hletter he, hd.isWordChar⟩
  | signed he hsign hd =>
    refine List.forall_mem_cons.2 ⟨hletter he, List.forall_mem_cons.2 ⟨?_, hd.isWordChar⟩⟩
    obtain rfl | rfl := hsign <;> decide

theorem Exponent.isExponent {cs : List Char} (h : Exponent cs) : isExponent cs = true := by
  cases h with
  | none => rfl
  | @plain e ds he hd =>
    cases ds with
    | nil => exact absurd rfl hd.ne_nil
    | cons d ds =>
      rw [Json.isExponent, if_neg hd.head_ne, hd.areDigits]
      obtain rfl | rfl := he <;> rfl
  | signed he hsign hd =>
    rw [Json.isExponent, if_pos hsign, hd.areDigits]
    obtain rfl | rfl := he <;> rfl

/-- An exponent does not go on with the digits before it. -/
theorem Exponent.dropWhile {cs : List Char} (h : Exponent cs) : cs.dropWhile Char.isDigit = cs := by
  have hletter : ∀ {e : Char}, e = 'e' ∨ e = 'E' → ¬ e.isDigit = true := by
    rintro _ (rfl | rfl) <;> decide
  cases h with
  | none => rfl
  | plain he => exact List.dropWhile_cons_of_neg (hletter he)
  | signed he => exact List.dropWhile_cons_of_neg (hletter he)

section
variable {fraction exponent : List Char} (hf : Fraction fraction) (he : Exponent exponent)
include hf he

theorem Fraction.isWordChar : ∀ c ∈ fraction ++ exponent, isWordChar c = true := by
  refine List.forall_mem_append.2 ⟨?_, he.isWordChar⟩
  cases hf with
  | none => nofun
  | digits hd => exact List.forall_mem_cons.2 ⟨by decide, hd.isWordChar⟩

theorem Fraction.isFraction : isFraction (fraction ++ exponent) = true := by
  cases hf with
  | none =>
    rw [List.nil_append]
    cases exponent with
    | nil => rfl
    | cons e cs =>
      have hpoint : e ≠ '.' := by
        rintro rfl
        cases he with
        | plain h => exact absurd h (by decide)
        | signed h => exact absurd h (by decide)
      rw [Json.isFraction, if_neg hpoint, he.isExponent]
  | @digits ds hd =>
    have hsome : ((ds ++ exponent).takeWhile Char.isDigit).isEmpty = false := by
      rw [List.takeWhile_append_of_pos hd.digits]
      simp [hd.ne_nil]
    rw [List.cons_append, Json.isFraction, if_pos rfl, hsome,
      List.dropWhile_append_of_pos hd.digits, he.dropWhile, he.isExponent]
    rfl

theorem Fraction.dropWhile : (fraction ++ exponent).dropWhile Char.isDigit =
    fraction ++ exponent := by
  cases hf with
  | none => exact he.dropWhile
  | digits hd => exact List.dropWhile_cons_of_neg (by decide)

theorem Whole.isUnsigned {whole : List Char} (hw : Whole whole) :
    isUnsigned (whole ++ (fraction ++ exponent)) = true := by
  cases hw with
  | zero => rw [List.singleton_append, Json.isUnsigned, if_pos rfl, hf.isFraction he]
  | digits hne hd =>
    rw [List.cons_append, Json.isUnsigned, if_neg hne, hd.digits _ (.head _),
      List.dropWhile_append_of_pos fun c hc => hd.digits c (.tail _ hc), hf.dropWhile he,
      hf.isFraction he]
    rfl

end

theorem Whole.isWordChar {cs : List Char} (h : Whole cs) : ∀ c ∈ cs, isWordChar c = true := by
  cases h with
  | zero => exact List.forall_mem_singleton.2 (by decide)
  | digits hne hd => exact hd.isWordChar

/-- A number has no sign in front, or a minus. -/
theorem Whole.head_ne {cs : List Char} (h : Whole cs) (rest : List Char) :
    ∃ d ds, cs ++ rest = d :: ds ∧ d ≠ '-' := by
  cases h with
  | zero => exact ⟨'0', rest, rfl, by decide⟩
  | @digits d ds hne hd => exact ⟨d, ds ++ rest, rfl, fun h => hd.head_ne (.inr h)⟩

theorem Numeral.isNumber {cs : List Char} (h : Numeral cs) : isNumber cs = true := by
  cases h with
  | @plain whole fraction exponent hw hf he =>
    obtain ⟨d, ds, hcs, hsign⟩ := hw.head_ne (fraction ++ exponent)
    rw [hcs, Json.isNumber, if_neg hsign, ← hcs, hw.isUnsigned hf he]
  | negative hw hf he => rw [Json.isNumber, if_pos rfl, hw.isUnsigned hf he]

theorem Numeral.isWordChar {cs : List Char} (h : Numeral cs) : ∀ c ∈ cs, isWordChar c = true := by
  cases h with
  | plain hw hf he => exact List.forall_mem_append.2 ⟨hw.isWordChar, hf.isWordChar he⟩
  | negative hw hf he =>
    exact List.forall_mem_cons.2 ⟨by decide,
      List.forall_mem_append.2 ⟨hw.isWordChar, hf.isWordChar he⟩⟩

/-- A number is none of the constants. -/
theorem Numeral.ofWord? {cs : List Char} (h : Numeral cs) :
    ofWord? cs = some (.number (.ofList cs)) := by
  have hne : ∀ constant : List Char, Json.isNumber constant = false → cs ≠ constant := by
    rintro _ hconstant rfl
    exact absurd h.isNumber (by simp [hconstant])
  rw [Json.ofWord?, if_neg (hne _ (by decide)), if_neg (hne _ (by decide)),
    if_neg (hne _ (by decide)), if_pos h.isNumber]

/-! ## Strings -/

theorem HexDigit.hexDigit? {c : Char} {n : Nat} (h : HexDigit c n) : hexDigit? c = some n := by
  have hall : ∀ n < 16, Json.hexDigit? n.digitChar = some n ∧
      Json.hexDigit? n.digitChar.toUpper = some n := by decide
  obtain ⟨hn, rfl | rfl⟩ := h
  · exact (hall n hn).1
  · exact (hall n hn).2

/-- A digit does not end a string literal or begin an escape. -/
theorem HexDigit.ne {c : Char} {n : Nat} (h : HexDigit c n) : c ≠ '"' ∧ c ≠ '\\' := by
  have hall : ∀ n < 16, (n.digitChar ≠ '"' ∧ n.digitChar ≠ '\\') ∧
      n.digitChar.toUpper ≠ '"' ∧ n.digitChar.toUpper ≠ '\\' := by decide
  obtain ⟨hn, rfl | rfl⟩ := h
  · exact (hall n hn).1
  · exact (hall n hn).2

theorem hexUnit?_eq {x y z w : Char} {k l m n : Nat} (hx : HexDigit x k) (hy : HexDigit y l)
    (hz : HexDigit z m) (hw : HexDigit w n) :
    hexUnit? x y z w = some (((k * 16 + l) * 16 + m) * 16 + n) := by
  simp only [hexUnit?, hx.hexDigit?, hy.hexDigit?, hz.hexDigit?, hw.hexDigit?, Option.bind_eq_bind,
    Option.bind_some]
  congr 1
  omega

theorem shortEscape?_eq {e c : Char} (h : (e, c) ∈ shortEscapes) :
    e ≠ 'u' ∧ shortEscape? e = some c := by
  have hall : ∀ p ∈ shortEscapes, p.1 ≠ 'u' ∧ shortEscape? p.1 = some p.2 := by decide
  exact hall (e, c) h

/-- The inside of a literal is read as its code points. -/
theorem Inside.unescape {cs : List Char} {units : List Nat} (h : Inside cs units) :
    unescape cs = some units := by
  induction h with
  | nil => rw [Json.unescape]
  | plain hquote hslash hcontrol h ih =>
    rw [Json.unescape.eq_def]
    simp [hslash, Nat.not_lt.2 hcontrol, ih]
  | short he h ih =>
    obtain ⟨hunit, hshort⟩ := shortEscape?_eq he
    rw [Json.unescape.eq_def]
    simp [hunit, hshort, ih]
  | unit hx hy hz hw h ih =>
    rw [Json.unescape.eq_def]
    simp [hexUnit?_eq hx hy hz hw, ih]

/-- Code points are those of characters or have four hexadecimal digits. -/
theorem Inside.lt {cs : List Char} {units : List Nat} (h : Inside cs units) :
    ∀ u ∈ units, u < 0x110000 := by
  have hchar : ∀ c : Char, c.toNat < 0x110000 := by
    intro c
    have hvalid := c.valid
    simp only [UInt32.isValidChar, Nat.isValidChar] at hvalid
    simp only [Char.toNat]
    omega
  induction h with
  | nil => nofun
  | plain hquote hslash hcontrol h ih => exact List.forall_mem_cons.2 ⟨hchar _, ih⟩
  | short he h ih => exact List.forall_mem_cons.2 ⟨hchar _, ih⟩
  | unit hx hy hz hw h ih =>
    refine List.forall_mem_cons.2 ⟨?_, ih⟩
    have hk := hx.1
    have hl := hy.1
    have hm := hz.1
    have hn := hw.1
    omega

/-- No character is half of a surrogate pair. -/
theorem not_surrogate (c : Char) : isHigh c.toNat = false ∧ isLow c.toNat = false := by
  have hvalid := c.valid
  simp only [UInt32.isValidChar, Nat.isValidChar] at hvalid
  simp only [isHigh, isLow, Bool.and_eq_false_iff, decide_eq_false_iff_not]
  simp only [Char.toNat]
  omega

theorem isHigh_iff {n : Nat} : isHigh n = true ↔ 0xD800 ≤ n ∧ n < 0xDC00 := by
  simp [isHigh]

theorem isLow_iff {n : Nat} : isLow n = true ↔ 0xDC00 ≤ n ∧ n < 0xE000 := by
  simp [isLow]

/-- A character in front is a character of its own. -/
theorem joinPairs_cons (c : Char) (units : List Nat) :
    joinPairs (c.toNat :: units) = (joinPairs units).map (c :: ·) := by
  obtain ⟨hhigh, hlow⟩ := not_surrogate c
  cases units with
  | nil => simp [joinPairs, hhigh, hlow]
  | cons next rest => simp [joinPairs, hhigh, hlow]

theorem Joined.joinPairs {units : List Nat} {cs : List Char} (h : Joined units cs) :
    joinPairs units = some cs := by
  induction h with
  | nil => rfl
  | single h ih => rw [joinPairs_cons, ih, Option.map_some]
  | @pair c high low units cs hhigh hlow hc h ih =>
    rw [Json.joinPairs, if_pos (isHigh_iff.2 hhigh), if_pos (isLow_iff.2 hlow), ih, ← hc,
      Char.ofNat_toNat, Option.map_some]

/-- A code point that is no surrogate is that of a character. -/
theorem toNat_ofNat {n : Nat} (hlt : n < 0x110000) (hhigh : ¬ isHigh n = true)
    (hlow : ¬ isLow n = true) : (Char.ofNat n).toNat = n := by
  rw [isHigh_iff] at hhigh
  rw [isLow_iff] at hlow
  have hvalid : n.isValidChar := by
    unfold Nat.isValidChar
    omega
  rw [Char.ofNat, dif_pos hvalid]
  rfl

/-- Only what makes characters is joined. -/
theorem joined_of_joinPairs {units : List Nat} {cs : List Char} (hlt : ∀ u ∈ units, u < 0x110000)
    (h : joinPairs units = some cs) : Joined units cs := by
  fun_induction joinPairs units generalizing cs with
  | case1 =>
    cases h
    exact .nil
  | case2 unit hsurrogate => cases h
  | case3 unit hno =>
    cases h
    rw [Bool.or_eq_true, not_or] at hno
    have hchar := Joined.single (c := Char.ofNat unit) .nil
    rwa [toNat_ofNat (hlt unit (.head _)) hno.1 hno.2] at hchar
  | case4 high low rest hhigh hlow ih =>
    obtain ⟨cs, hcs, rfl⟩ := Option.map_eq_some_iff.1 h
    rw [isHigh_iff] at hhigh
    rw [isLow_iff] at hlow
    refine .pair hhigh hlow (toNat_ofNat (by omega) ?_ ?_) (ih (fun u hu => hlt u ?_) hcs)
    · rw [isHigh_iff]
      omega
    · rw [isLow_iff]
      omega
    · exact List.mem_cons_of_mem _ (List.mem_cons_of_mem _ hu)
  | case5 => cases h
  | case6 => cases h
  | case7 unit next rest hhigh hlow ih =>
    obtain ⟨cs, hcs, rfl⟩ := Option.map_eq_some_iff.1 h
    have hchar := Joined.single (c := Char.ofNat unit)
      (ih (fun u hu => hlt u (List.mem_cons_of_mem _ hu)) hcs)
    rwa [toNat_ofNat (hlt unit (.head _)) hhigh hlow] at hchar

theorem Inside.ofInside? {cs text : List Char} {units : List Nat} (h : Inside cs units)
    (hj : Joined units text) : ofInside? cs = some (.text (.ofList text)) := by
  rw [Json.ofInside?, h.unescape, Option.map_some, hj.joinPairs]
  rfl

theorem Inside.ofInside?_unpaired {cs : List Char} {units : List Nat} (h : Inside cs units)
    (hno : ∀ text, ¬ Joined units text) : Json.ofInside? cs = some (.string none) := by
  have hnone : Json.joinPairs units = none := by
    cases hjoin : Json.joinPairs units with
    | none => rfl
    | some text => exact absurd (joined_of_joinPairs h.lt hjoin) (hno text)
  rw [Json.ofInside?, h.unescape, Option.map_some, hnone]
  rfl

/-! ## Lexemes -/

/-- The characters are cut into the lexemes, whatever stands after them. -/
def CutInto (cs : List Char) (ls : List Lexeme) : Prop := ∀ rest, Apart rest →
  lexemes? .between (cs ++ rest) = (lexemes? .between rest).map (ls ++ ·)

theorem Blanks.isSpace {cs : List Char} (h : Blanks cs) : ∀ c ∈ cs, isSpace c = true :=
  h.forall (by decide)

/-- No word goes on with blanks. -/
theorem Blanks.apart {cs rest : List Char} (h : Blanks cs) (hrest : Apart rest) :
    Apart (cs ++ rest) := by
  cases cs with
  | nil => exact hrest
  | cons c cs =>
    have hall : ∀ d ∈ c :: cs, (!isWordChar d) = true := h.forall (by decide)
    exact .cons (by simpa using hall c (.head _)) (cs ++ rest)

namespace CutInto

variable {cs ds : List Char} {ls ms : List Lexeme}

/-- Blanks are no lexemes. -/
theorem blanks (h : Blanks cs) : CutInto cs [] := by
  intro rest _
  rw [lexemes?_blanks h.isSpace]
  exact Option.map_id'.symm

/-- Lexemes one after the other, if the first part does not end with a word that goes on. -/
theorem append (h : CutInto cs ls) (hs : CutInto ds ms)
    (hapart : ∀ rest, Apart rest → Apart (ds ++ rest)) : CutInto (cs ++ ds) (ls ++ ms) := by
  intro rest hrest
  rw [List.append_assoc, h _ (hapart rest hrest), hs rest hrest]
  simp [Function.comp_def]

/-- Punctuation in front. -/
theorem cons {c : Char} {l : Lexeme} (h : CutInto cs ls)
    (hstart : Mode.start c = some (.between, [l])) : CutInto (c :: cs) (l :: ls) := by
  intro rest hrest
  rw [List.cons_append, lexemes?_punctuation hstart, h rest hrest]
  simp [Function.comp_def]

/-- Two parts with punctuation in between. -/
theorem separated {c : Char} {l : Lexeme} (h : CutInto cs ls) (hs : CutInto ds ms)
    (hstart : Mode.start c = some (.between, [l])) (hword : isWordChar c = false) :
    CutInto (cs ++ c :: ds) (ls ++ l :: ms) :=
  h.append (hs.cons hstart) fun rest _ => .cons hword (ds ++ rest)

/-- Brackets around what is in between. -/
theorem enclosed {c d : Char} {l m : Lexeme} (h : CutInto cs ls)
    (hstart : Mode.start c = some (.between, [l])) (hstop : Mode.start d = some (.between, [m]))
    (hword : isWordChar d = false) : CutInto (c :: (cs ++ [d])) (l :: (ls ++ [m])) := by
  have hnone : CutInto [] [] := blanks nofun
  exact (h.separated hnone hstop hword).cons hstart

/-- Blanks around do not change what is cut. -/
theorem padded {lead trail : List Char} (h : CutInto cs ls) (hlead : Blanks lead)
    (htrail : Blanks trail) : CutInto (lead ++ (cs ++ trail)) ls := by
  have hback := h.append (blanks htrail) fun rest => htrail.apart
  rw [List.append_nil] at hback
  intro rest hrest
  rw [List.append_assoc, lexemes?_blanks hlead.isSpace, hback rest hrest]

/-- A word is the lexeme of its value. -/
theorem word {v : Json} (hchars : ∀ c ∈ cs, isWordChar c = true) (hvalue : ofWord? cs = some v) :
    CutInto cs [.scalar v] := by
  have hstart : ∀ {c : Char}, isWordChar c = true → Mode.start c = some (.word [c], []) := by
    intro c h
    have hspace : ¬ isSpace c = true := by
      intro hspace
      simp only [isSpace, Bool.or_eq_true, beq_iff_eq] at hspace
      obtain ((rfl | rfl) | rfl) | rfl := hspace <;> exact absurd h (by decide)
    have hquote : c ≠ '"' := by
      rintro rfl
      exact absurd h (by decide)
    rw [Mode.start, if_neg hspace, if_neg hquote, if_pos h]
  have hrun : ∀ (cs reversed : List Char), (∀ c ∈ cs, isWordChar c = true) →
      lexemes? (.word reversed) cs = Mode.finish (.word (cs.reverse ++ reversed)) := by
    intro cs
    induction cs with
    | nil => exact fun _ _ => rfl
    | cons c cs ih =>
      intro reversed h
      obtain ⟨hc, hcs⟩ := List.forall_mem_cons.1 h
      simp [lexemes?, Mode.step, hc, ih _ hcs]
  have hword : lexemes? .between cs = some [.scalar v] := by
    cases cs with
    | nil => cases hvalue
    | cons c cs =>
      obtain ⟨hc, hcs⟩ := List.forall_mem_cons.1 hchars
      simp [lexemes?, Mode.step, hstart hc, hrun cs [c] hcs, Mode.finish, hvalue]
  exact fun rest hrest => lexemes?_append hword hrest

end CutInto

theorem lexemes?_inside {c : Char} (hquote : c ≠ '"') (hslash : c ≠ '\\')
    (reversed cs : List Char) : lexemes? (.inside reversed false) (c :: cs) =
      lexemes? (.inside (c :: reversed) false) cs := by
  refine lexemes?_silent ?_ cs
  rw [Mode.step, if_neg hquote, beq_false_of_ne hslash]

theorem lexemes?_inside_escaped (reversed : List Char) (e : Char) (cs : List Char) :
    lexemes? (.inside reversed false) ('\\' :: e :: cs) =
      lexemes? (.inside (e :: '\\' :: reversed) false) cs :=
  (lexemes?_silent rfl (e :: cs)).trans (lexemes?_silent rfl cs)

/-- Nothing inside a literal ends it. -/
theorem Inside.lexemes? {cs : List Char} {units : List Nat} (h : Inside cs units)
    (reversed rest : List Char) : lexemes? (.inside reversed false) (cs ++ rest) =
      lexemes? (.inside (cs.reverse ++ reversed) false) rest := by
  induction h generalizing reversed with
  | nil => rfl
  | plain hquote hslash hcontrol h ih =>
    rw [List.cons_append, lexemes?_inside hquote hslash, ih]
    simp
  | short he h ih =>
    rw [List.cons_append, List.cons_append, lexemes?_inside_escaped, ih]
    simp
  | unit hx hy hz hw h ih =>
    simp only [List.cons_append]
    rw [lexemes?_inside_escaped, lexemes?_inside hx.ne.1 hx.ne.2, lexemes?_inside hy.ne.1 hy.ne.2,
      lexemes?_inside hz.ne.1 hz.ne.2, lexemes?_inside hw.ne.1 hw.ne.2, ih]
    simp

/-- A string literal is the lexeme of its string. -/
theorem Inside.cutInto {cs : List Char} {units : List Nat} (h : Inside cs units) {v : Json}
    (hv : Json.ofInside? cs = some v) : CutInto ('"' :: (cs ++ ['"'])) [.scalar v] := by
  intro rest _
  have hopening : Json.lexemes? .between ('"' :: (cs ++ ['"']) ++ rest) =
      Json.lexemes? (.inside [] false) (cs ++ ('"' :: rest)) := by
    rw [List.cons_append, List.append_assoc]
    exact lexemes?_silent rfl _
  rw [hopening, h.lexemes?, List.append_nil]
  simp [Json.lexemes?, Mode.step, hv]

-- The recursion is that of the derivation.
mutual

/-- A value is cut into its lexemes. -/
theorem IsValue.cutInto : ∀ {cs : List Char} {v : Json}, IsValue cs v → CutInto cs v.lexemes
  | _, _, .nullWord => .word (List.all_eq_true.1 rfl) rfl
  | _, _, .trueWord => .word (List.all_eq_true.1 rfl) rfl
  | _, _, .falseWord => .word (List.all_eq_true.1 rfl) rfl
  | _, _, .number h => .word h.isWordChar h.ofWord?
  | _, _, .text h hj => h.cutInto (h.ofInside? hj)
  | _, _, .unpaired h hno => h.cutInto (h.ofInside?_unpaired hno)
  | _, _, .array h => h.cutInto.enclosed rfl rfl (by decide)
  | _, _, .object h => h.cutInto.enclosed rfl rfl (by decide)

theorem Denotes.cutInto : ∀ {cs : List Char} {v : Json}, Denotes cs v → CutInto cs v.lexemes
  | _, _, .padded hlead htrail h => h.cutInto.padded hlead htrail

theorem ItemsDenote.cutInto : ∀ {cs : List Char} {vs : List Json}, ItemsDenote cs vs →
    CutInto cs (itemLexemes vs)
  | _, _, .none h => .blanks h
  | _, _, .one h => h.cutInto
  | _, _, .more h hs => h.cutInto.separated hs.cutInto rfl (by decide)

theorem MembersDenote.cutInto : ∀ {cs : List Char} {ms : List (Option String × Json)},
    MembersDenote cs ms → CutInto cs (memberLexemes ms)
  | _, _, .none h => .blanks h
  | _, _, .one hkey h => hkey.cutInto.separated h.cutInto rfl (by decide)
  | _, _, .more hkey h hs =>
    hkey.cutInto.separated (h.cutInto.separated hs.cutInto rfl (by decide)) rfl (by decide)

end

/-- Every text of a value is read as the value. -/
theorem parse?_of_denotes {text : String} {v : Json} (h : Denotes text.toList v) :
    parse? text = some v := by
  have hcut := h.cutInto [] .nil
  rw [List.append_nil] at hcut
  rw [parse?_eq_some_iff, hcut]
  simp [lexemes?, Mode.finish]

/-! ## Writing -/

theorem head?_toDigits_ne_zero {n : Nat} (h : 0 < n) : (Nat.toDigits 10 n).head? ≠ some '0' := by
  induction n using Nat.strongRecOn with
  | ind n ih =>
    rw [Nat.toDigits_eq_if (by decide)]
    split
    · rename_i hlt
      have hdigits : ∀ n < 10, 0 < n → [Nat.digitChar n].head? ≠ some '0' := by decide
      exact hdigits n hlt h
    · rename_i hge
      have hhead := ih (n / 10) (by omega) (by omega)
      rwa [List.head?_append_of_ne_nil _ Nat.toDigits_ne_nil]

theorem isDigit_of_mem_repr {n : Nat} {c : Char} (h : c ∈ n.repr.toList) : c.isDigit = true := by
  rw [Nat.toList_repr] at h
  exact Nat.isDigit_of_mem_toDigits (by decide) (by decide) h

theorem digits_repr (n : Nat) : Digits n.repr.toList :=
  ⟨by rw [Nat.toList_repr]; exact Nat.toDigits_ne_nil, fun _ => isDigit_of_mem_repr⟩

/-- A natural number is written as a number. -/
theorem numeral_repr (n : Nat) : Numeral n.repr.toList := by
  have hwhole : Whole n.repr.toList := by
    have hdigits := digits_repr n
    rcases Nat.eq_zero_or_pos n with rfl | hpos
    · exact .zero
    · have hhead := head?_toDigits_ne_zero hpos
      rw [← Nat.toList_repr] at hhead
      generalize n.repr.toList = cs at hdigits hhead ⊢
      cases cs with
      | nil => exact absurd rfl hdigits.ne_nil
      | cons d ds => exact .digits (fun h => hhead (congrArg some h)) hdigits
  have hnumeral := Numeral.plain hwhole .none .none
  rwa [List.append_nil, List.append_nil] at hnumeral

/-- An escaped character stands for its code point. -/
theorem inside_escape (c : Char) {cs : List Char} {units : List Nat} (h : Inside cs units) :
    Inside (escape c ++ cs) (c.toNat :: units) := by
  have hshort : ∀ {e d : Char}, c = d → (e, d) ∈ shortEscapes →
      Inside (['\\', e] ++ cs) (c.toNat :: units) := by
    rintro e _ rfl he
    exact .short he h
  unfold escape
  iterate 7
    split
    next hc => exact hshort hc (by decide)
  split
  next hcontrol =>
    have hzero : HexDigit '0' 0 := by decide
    have hunit := Inside.unit hzero hzero (z := (c.toNat / 16).digitChar)
      (w := (c.toNat % 16).digitChar) ⟨by omega, .inl rfl⟩ ⟨by omega, .inl rfl⟩ h
    rwa [show ((0 * 16 + 0) * 16 + c.toNat / 16) * 16 + c.toNat % 16 = c.toNat by omega] at hunit
  next hquote hslash _ _ _ _ _ hcontrol => exact .plain hquote hslash (Nat.not_lt.1 hcontrol) h

theorem inside_flatMap_escape (text : List Char) :
    Inside (text.flatMap escape) (text.map Char.toNat) := by
  induction text with
  | nil => exact .nil
  | cons c text ih => exact inside_escape c ih

theorem joined_toNat (text : List Char) : Joined (text.map Char.toNat) text := by
  induction text with
  | nil => exact .nil
  | cons c text ih => exact .single ih

/-- A string literal denotes its string. -/
theorem isValue_quote (s : String) : IsValue (quote (some s)) (.text s) := by
  have hvalue := IsValue.text (inside_flatMap_escape s.toList) (joined_toNat s.toList)
  rwa [String.ofList_toList] at hvalue

/-- The characters that a value is written with denote it, and the rest follows them. -/
def Written (v : Json) : Prop := ∃ cs, (∀ rest, v.write rest = cs ++ rest) ∧ IsValue cs v

theorem exists_writeItems {items : List Json} (h : ∀ v ∈ items, Written v) :
    ∃ cs, (∀ rest, writeItems items rest = cs ++ rest) ∧ ItemsDenote cs items := by
  induction items with
  | nil => exact ⟨[], fun _ => rfl, .none nofun⟩
  | cons v vs ih =>
    obtain ⟨⟨cs, hcs, hv⟩, hvs⟩ := List.forall_mem_cons.1 h
    cases vs with
    | nil => exact ⟨cs, hcs, .one hv.denotes⟩
    | cons w ws =>
      obtain ⟨ds, hds, hws⟩ := ih hvs
      refine ⟨cs ++ ',' :: ds, fun rest => ?_, .more hv.denotes hws⟩
      rw [writeItems.eq_3 _ _ _ (List.cons_ne_nil w ws), hcs, hds, List.append_assoc,
        List.cons_append]

theorem exists_writeMembers {members : List (String × Json)} (h : ∀ m ∈ members, Written m.2) :
    ∃ cs, (∀ rest, writeMembers (members.map fun m => (some m.1, m.2)) rest = cs ++ rest) ∧
      MembersDenote cs (members.map fun m => (some m.1, m.2)) := by
  induction members with
  | nil => exact ⟨[], fun _ => rfl, .none nofun⟩
  | cons m ms ih =>
    obtain ⟨⟨cs, hcs, hv⟩, hms⟩ := List.forall_mem_cons.1 h
    have hkey := (isValue_quote m.1).denotes
    cases ms with
    | nil =>
      refine ⟨quote (some m.1) ++ ':' :: cs, fun rest => ?_, .one hkey hv.denotes⟩
      rw [List.map_singleton, writeMembers, hcs, List.append_assoc, List.cons_append]
    | cons n ns =>
      obtain ⟨ds, hds, hns⟩ := ih hms
      have htail : (n :: ns).map (fun m => (some m.1, m.2)) ≠ [] := List.cons_ne_nil _ _
      refine ⟨quote (some m.1) ++ ':' :: (cs ++ ',' :: ds), fun rest => ?_,
        .more hkey hv.denotes hns⟩
      rw [List.map_cons, writeMembers.eq_3 _ _ _ _ htail, hcs, hds,
        List.append_assoc, List.cons_append, List.append_assoc, List.cons_append]

theorem Printable.written {v : Json} (h : Printable v) : Written v := by
  induction h with
  | text s => exact ⟨quote (some s), fun _ => rfl, isValue_quote s⟩
  | @natural n h =>
    have hvalue := IsValue.number (numeral_repr n)
    rw [String.ofList_toList] at hvalue
    exact ⟨n.repr.toList, fun _ => rfl, hvalue⟩
  | array h ih =>
    obtain ⟨cs, hcs, hitems⟩ := exists_writeItems ih
    refine ⟨'[' :: (cs ++ [']']), fun rest => ?_, .array hitems⟩
    rw [write, hcs, List.cons_append, List.append_assoc, List.singleton_append]
  | record h ih =>
    obtain ⟨cs, hcs, hmembers⟩ := exists_writeMembers ih
    refine ⟨'\x7b' :: (cs ++ ['\x7d']), fun rest => ?_, .object hmembers⟩
    rw [Json.record, write, hcs, List.cons_append, List.append_assoc, List.singleton_append]

/-- What is written denotes the value. -/
theorem denotes_render {v : Json} (h : Printable v) : Denotes (render v).toList v := by
  obtain ⟨cs, hcs, hvalue⟩ := h.written
  rw [render, String.toList_ofList, hcs, List.append_nil]
  exact hvalue.denotes

theorem denotes_of_render {v : Json} {text : String} (h : Printable v) (htext : render v = text) :
    Denotes text.toList v :=
  htext ▸ denotes_render h

theorem denotes_quoted {s text : String} (htext : render (.text s) = text) :
    Denotes text.toList (.text s) :=
  denotes_of_render (.text s) htext

/-! ## Decoding -/

/-- What each element is made into is made into the element again. -/
theorem mapM_map_eq_some {α β : Type} {f : β → Option α} {g : α → β} {as : List α}
    (h : ∀ a ∈ as, f (g a) = some a) : (as.map g).mapM f = some as := by
  induction as with
  | nil => rfl
  | cons a as ih =>
    obtain ⟨ha, has⟩ := List.forall_mem_cons.1 h
    rw [List.map_cons, List.mapM_cons, ha, ih has]
    rfl

theorem textKeys_map (members : List (String × Json)) :
    textKeys (members.map fun m => (some m.1, m.2)) = some members :=
  mapM_map_eq_some fun _ _ => rfl

theorem ofDigitChars_repr (n : Nat) : Nat.ofDigitChars 10 n.repr.toList 0 = n := by
  rw [Nat.toList_repr, Nat.ofDigitChars_ten_toDigits]

/-- A number of 64 bits is read as it was. -/
theorem natural?_natural {n : Nat} (h : n < UInt64.size) : natural? (.natural n) = some n := by
  have hdigits : n.repr.toList.all Char.isDigit = true :=
    List.all_eq_true.2 fun c => isDigit_of_mem_repr
  simp only [natural, natural?, ofDigitChars_repr, hdigits]
  simp [h]

/-- To look a name up is to take the first member of the name. -/
theorem lookup_eq_head? (members : List (String × Json)) (name : String) :
    members.lookup name = (members.filter fun m => m.1 == name).head?.map Prod.snd := by
  induction members with
  | nil => rfl
  | cons m ms ih =>
    by_cases hm : m.1 = name
    · subst hm
      rw [List.lookup_cons_self, List.filter_cons_of_pos (by simp)]
      rfl
    · have hname : (name == m.1) = false := beq_false_of_ne (Ne.symm hm)
      rw [List.lookup_cons, hname, List.filter_cons_of_neg (by simpa using hm)]
      exact ih

/-- A field that is given once at most has the value of the first member of its name. -/
theorem named_eq {members : List (String × Json)} {f : Field}
    (honce : (members.filter fun m => m.1 == f.name).length ≤ 1)
    (hthere : f.omission = .never → f.name ∈ members.map Prod.fst) :
    named members f = some (members.lookup f.name) := by
  rw [named, lookup_eq_head?]
  cases hmembers : members.filter fun m => m.1 == f.name with
  | nil =>
    have hoptional : f.omission ≠ .never := by
      intro hnever
      obtain ⟨m, hm, hname⟩ := List.mem_map.1 (hthere hnever)
      have hno := List.filter_eq_nil_iff.1 hmembers m hm
      exact hno (beq_iff_eq.2 hname)
    exact if_neg hoptional
  | cons m ms =>
    rw [hmembers] at honce
    obtain rfl : ms = [] := List.length_eq_zero_iff.1 (Nat.le_zero.1 (Nat.le_of_succ_le_succ honce))
    rfl

theorem fields?_record {fs : List Field} {members : List (String × Json)}
    (honce : ∀ f ∈ fs, (members.filter fun m => m.1 == f.name).length ≤ 1)
    (hthere : ∀ f ∈ fs, f.omission = .never → f.name ∈ members.map Prod.fst) :
    fields? fs (.record members) = some (fs.map fun f => members.lookup f.name) := by
  rw [record, fields?, textKeys_map]
  simp only [Option.bind_eq_bind, Option.bind_some]
  induction fs with
  | nil => rfl
  | cons f fs ih =>
    obtain ⟨hf, hfs⟩ := List.forall_mem_cons.1 honce
    obtain ⟨hf', hfs'⟩ := List.forall_mem_cons.1 hthere
    rw [List.mapM_cons, named_eq hf hf', ih hfs hfs']
    rfl

/-- The library that runs is as it is relied on. -/
theorem Library.conforms_builtIn : Library.builtIn.Conforms where
  read := parse?_of_denotes
  write := denotes_render
  text := fun _ => rfl
  natural := natural?_natural
  variant := fun h => if_pos h
  items := fun _ => rfl
  entries := textKeys_map
  fields := fields?_record

end LabelFlow.Json
