import LabelFlow.Json.Reader

/-!
# What the reader of JSON accepts

The reader cuts a text into lexemes and makes a value of them at the same time. Here the two are
told apart: `lexemes?` cuts the text alone, and `Json.lexemes` are those that a value is written
with. A text is read as a value if and only if it is cut into the lexemes of that value
(`parse?_eq_some_iff`), so no lexemes have two readings and none are lost on the way.

One way round, each state of the reader stands for the lexemes it has taken (`Build.taken`), and a
step takes one more. The other way round, the lexemes of a value complete it in any surroundings.
-/

set_option autoImplicit false

namespace LabelFlow.Json

/-! ## Cutting -/

/-- The lexemes of characters that are read in a mode, up to the end of the text. -/
def lexemes? (m : Mode) : List Char → Option (List Lexeme)
  | [] => m.finish
  | c :: cs => do
    let (next, ls) ← m.step c
    (lexemes? next cs).map (ls ++ ·)

/-- A reader makes its value of the lexemes that are left. -/
theorem Reader.run_eq (r : Reader) (cs : List Char) :
    (cs.foldlM Reader.step r >>= Reader.finish) =
      (lexemes? r.mode cs >>= fun ls => ls.foldlM Build.take r.build >>= Build.finish) := by
  induction cs generalizing r with
  | nil => rfl
  | cons c cs ih =>
    rw [List.foldlM_cons, Reader.step, lexemes?]
    cases r.mode.step c with
    | none => rfl
    | some next =>
      obtain ⟨mode, ls⟩ := next
      cases hb : ls.foldlM Build.take r.build with
      | none => cases hc : lexemes? mode cs <;> simp [hb, hc]
      | some b =>
        have hrest := ih ⟨mode, b⟩
        cases hc : lexemes? mode cs <;> simp_all

/-- Reading is cutting and then building. -/
theorem parse?_eq (text : String) :
    parse? text = (lexemes? .between text.toList >>= fun ls =>
      ls.foldlM Build.take .start >>= Build.finish) :=
  Reader.run_eq .start text.toList

/-- No word goes on in these characters. -/
def Apart (cs : List Char) : Prop := ∀ c ∈ cs.head?, isWordChar c = false

theorem Apart.nil : Apart [] := nofun

theorem Apart.cons {c : Char} (h : isWordChar c = false) (cs : List Char) : Apart (c :: cs) := by
  intro d hd
  cases hd
  exact h

/-- Two texts of which the second does not go on with a word of the first are cut one after the
other. -/
theorem lexemes?_append {m : Mode} {first rest : List Char} {ls : List Lexeme}
    (h : lexemes? m first = some ls) (hrest : Apart rest) :
    lexemes? m (first ++ rest) = (lexemes? .between rest).map (ls ++ ·) := by
  induction first generalizing m ls with
  | nil =>
    cases m with
    | between =>
      cases h
      exact Option.map_id'.symm
    | word reversed =>
      obtain ⟨value, hvalue, rfl⟩ := Option.map_eq_some_iff.1 h
      cases rest with
      | nil => exact h
      | cons c cs =>
        have hc : isWordChar c = false := hrest c rfl
        rw [List.nil_append, lexemes?, lexemes?, Mode.step, Mode.step, hc, hvalue]
        cases Mode.start c with
        | none => rfl
        | some next => cases hcs : lexemes? next.1 cs <;> simp [hcs]
    | inside reversed escaped => cases h
  | cons c cs ih =>
    rw [lexemes?] at h
    rw [List.cons_append, lexemes?]
    cases hstep : m.step c with
    | none => rw [hstep] at h; cases h
    | some next =>
      obtain ⟨mode, now⟩ := next
      rw [hstep] at h
      obtain ⟨later, hlater, rfl⟩ := Option.map_eq_some_iff.1 h
      simp only [Option.bind_eq_bind, Option.bind_some, ih hlater, Option.map_map]
      congr 1
      funext ls
      exact (List.append_assoc now later ls).symm

/-- Punctuation is a lexeme of its own. -/
theorem lexemes?_punctuation {c : Char} {l : Lexeme} (hstart : Mode.start c = some (.between, [l]))
    (cs : List Char) : lexemes? .between (c :: cs) = (lexemes? .between cs).map (l :: ·) := by
  rw [lexemes?, Mode.step, hstart]
  rfl

/-- A character that ends no lexeme. -/
theorem lexemes?_silent {m next : Mode} {c : Char} (h : m.step c = some (next, []))
    (cs : List Char) : lexemes? m (c :: cs) = lexemes? next cs := by
  rw [lexemes?, h]
  exact Option.map_id'

/-- Blanks between lexemes are passed over. -/
theorem lexemes?_blank {c : Char} (h : isSpace c = true) (cs : List Char) :
    lexemes? .between (c :: cs) = lexemes? .between cs := by
  refine lexemes?_silent ?_ cs
  rw [Mode.step, Mode.start, if_pos h]

theorem lexemes?_blanks {blanks : List Char} (h : ∀ c ∈ blanks, isSpace c = true)
    (cs : List Char) : lexemes? .between (blanks ++ cs) = lexemes? .between cs := by
  induction blanks with
  | nil => rfl
  | cons c blanks ih =>
    rw [List.cons_append, lexemes?_blank (h c (.head _)), ih fun d hd => h d (.tail _ hd)]

/-! ## The lexemes of a value -/

mutual

/-- The lexemes that a value is written with. -/
def lexemes : Json → List Lexeme
  | .array items => .openBracket :: itemLexemes items ++ [.closeBracket]
  | .object members => .openBrace :: memberLexemes members ++ [.closeBrace]
  | v => [.scalar v]

/-- The lexemes of values between commas. -/
def itemLexemes : List Json → List Lexeme
  | [] => []
  | [v] => lexemes v
  | v :: vs => lexemes v ++ .comma :: itemLexemes vs

/-- The lexemes of members between commas. -/
def memberLexemes : List (Option String × Json) → List Lexeme
  | [] => []
  | [(key, v)] => .scalar (.string key) :: .colon :: lexemes v
  | (key, v) :: ms => .scalar (.string key) :: .colon :: lexemes v ++ .comma :: memberLexemes ms

end

theorem itemLexemes_cons {v : Json} {vs : List Json} (h : vs ≠ []) :
    itemLexemes (v :: vs) = lexemes v ++ .comma :: itemLexemes vs := itemLexemes.eq_3 v vs h

theorem memberLexemes_cons {m : Option String × Json} {ms : List (Option String × Json)}
    (h : ms ≠ []) : memberLexemes (m :: ms) =
      .scalar (.string m.1) :: .colon :: lexemes m.2 ++ .comma :: memberLexemes ms :=
  memberLexemes.eq_3 m.1 m.2 ms h

theorem itemLexemes_concat (done : List Json) (v : Json) :
    itemLexemes (done ++ [v]) = (done.flatMap fun v => lexemes v ++ [.comma]) ++ lexemes v := by
  induction done with
  | nil => rfl
  | cons w done ih =>
    rw [List.cons_append, itemLexemes_cons (List.concat_ne_nil v done), ih]
    simp

theorem memberLexemes_concat (done : List (Option String × Json)) (m : Option String × Json) :
    memberLexemes (done ++ [m]) =
      (done.flatMap fun m => .scalar (.string m.1) :: .colon :: lexemes m.2 ++ [.comma]) ++
        .scalar (.string m.1) :: .colon :: lexemes m.2 := by
  induction done with
  | nil => rfl
  | cons n done ih =>
    rw [List.cons_append, memberLexemes_cons (List.concat_ne_nil m done), ih]
    simp

/-- Punctuation, or the only lexeme of its value. -/
def Lexeme.Plain : Lexeme → Prop
  | .scalar v => v.lexemes = [.scalar v]
  | _ => True

theorem plain_of_ofWord? {word : List Char} {v : Json} (h : ofWord? word = some v) :
    v.lexemes = [.scalar v] := by
  unfold ofWord? at h
  split at h
  · cases h; rfl
  split at h
  · cases h; rfl
  split at h
  · cases h; rfl
  split at h
  · cases h; rfl
  · cases h

theorem plain_of_ofInside? {inside : List Char} {v : Json} (h : ofInside? inside = some v) :
    v.lexemes = [.scalar v] := by
  obtain ⟨units, -, rfl⟩ := Option.map_eq_some_iff.1 h
  rfl

theorem Lexeme.plain_ofChar? {c : Char} {l : Lexeme} (h : Lexeme.ofChar? c = some l) :
    l.Plain := by
  unfold Lexeme.ofChar? at h
  repeat' split at h
  all_goals first | cases h; trivial | cases h

theorem Mode.plain_start {c : Char} {next : Mode} {ls : List Lexeme}
    (h : Mode.start c = some (next, ls)) : ∀ l ∈ ls, l.Plain := by
  unfold Mode.start at h
  split at h
  · cases h; nofun
  split at h
  · cases h; nofun
  split at h
  · cases h; nofun
  · obtain ⟨l, hl, heq⟩ := Option.map_eq_some_iff.1 h
    cases heq
    exact List.forall_mem_singleton.2 (Lexeme.plain_ofChar? hl)

theorem Mode.plain_step {m next : Mode} {c : Char} {ls : List Lexeme}
    (h : m.step c = some (next, ls)) : ∀ l ∈ ls, l.Plain := by
  cases m with
  | between => exact Mode.plain_start h
  | word reversed =>
    simp only [Mode.step] at h
    split at h
    · cases h; nofun
    · split at h
      · rename_i value later ls' hvalue hstart
        cases h
        exact List.forall_mem_cons.2 ⟨plain_of_ofWord? hvalue, Mode.plain_start hstart⟩
      · cases h
  | inside reversed escaped =>
    cases escaped with
    | true => cases h; nofun
    | false =>
      simp only [Mode.step] at h
      split at h
      · obtain ⟨value, hvalue, heq⟩ := Option.map_eq_some_iff.1 h
        cases heq
        exact List.forall_mem_singleton.2 (plain_of_ofInside? hvalue)
      · cases h; nofun

theorem Mode.plain_finish {m : Mode} {ls : List Lexeme} (h : m.finish = some ls) :
    ∀ l ∈ ls, l.Plain := by
  cases m with
  | between => cases h; nofun
  | word reversed =>
    obtain ⟨value, hvalue, rfl⟩ := Option.map_eq_some_iff.1 h
    exact List.forall_mem_singleton.2 (plain_of_ofWord? hvalue)
  | inside reversed escaped => cases h

/-- What a text is cut into are plain lexemes. -/
theorem plain_of_lexemes? {m : Mode} {cs : List Char} {ls : List Lexeme}
    (h : lexemes? m cs = some ls) : ∀ l ∈ ls, l.Plain := by
  induction cs generalizing m ls with
  | nil => exact Mode.plain_finish h
  | cons c cs ih =>
    obtain ⟨⟨next, now⟩, hstep, hrest⟩ := Option.bind_eq_some_iff.1 h
    obtain ⟨later, hlater, rfl⟩ := Option.map_eq_some_iff.1 hrest
    exact List.forall_mem_append.2 ⟨Mode.plain_step hstep, ih hlater⟩

/-! ## What a state has taken -/

/-- The lexemes of members that are followed by others. -/
def doneLexemes (done : List (Option String × Json)) : List Lexeme :=
  done.reverse.flatMap fun m => .scalar (.string m.1) :: .colon :: lexemes m.2 ++ [.comma]

/-- The lexemes of a container up to the value that is read in it. -/
def Frame.taken : Frame → List Lexeme
  | .item done => .openBracket :: done.reverse.flatMap fun v => lexemes v ++ [.comma]
  | .member done key => .openBrace :: doneLexemes done ++ [.scalar (.string key), .colon]

/-- The lexemes since the innermost container that has a value before the place. -/
def Focus.taken : Focus → List Lexeme
  | .value => []
  | .firstItem => [.openBracket]
  | .firstKey => [.openBrace]
  | .key done => .openBrace :: doneLexemes done
  | .colon done last => .openBrace :: doneLexemes done ++ [.scalar (.string last)]
  | .complete v => v.lexemes

/-- The lexemes that led to a state. -/
def Build.taken (b : Build) : List Lexeme := b.outer.reverse.flatMap Frame.taken ++ b.focus.taken

theorem Build.taken_begin {outer : List Frame} {l : Lexeme} {b : Build} (hl : l.Plain)
    (h : begin outer l = some b) : b.taken = outer.reverse.flatMap Frame.taken ++ [l] := by
  cases l <;> cases h
  case scalar v => exact congrArg (outer.reverse.flatMap Frame.taken ++ ·) hl
  all_goals rfl

theorem Build.taken_resume {outer : List Frame} {v : Json} {l : Lexeme} {b : Build}
    (h : resume outer v l = some b) :
    b.taken = outer.reverse.flatMap Frame.taken ++ (v.lexemes ++ [l]) := by
  unfold resume at h
  split at h <;> cases h
  · simp [Build.taken, Frame.taken, Focus.taken]
  · simp [Build.taken, Frame.taken, Focus.taken, lexemes, itemLexemes_concat]
  · simp [Build.taken, Frame.taken, Focus.taken, doneLexemes]
  · simp [Build.taken, Frame.taken, Focus.taken, doneLexemes, lexemes, memberLexemes_concat]

/-- A step takes the lexeme it is given. -/
theorem Build.taken_take {b b' : Build} {l : Lexeme} (hl : l.Plain) (h : b.take l = some b') :
    b'.taken = b.taken ++ [l] := by
  obtain ⟨outer, focus⟩ := b
  cases focus with
  | value => simpa [Build.taken, Focus.taken] using taken_begin hl h
  | firstItem =>
    simp only [take] at h
    split at h
    · cases h; simp [Build.taken, Focus.taken, lexemes, itemLexemes]
    · rw [taken_begin hl h]; simp [Build.taken, Focus.taken, Frame.taken]
  | firstKey =>
    simp only [take] at h
    split at h <;> cases h
    · simp [Build.taken, Focus.taken, lexemes, memberLexemes]
    · simp [Build.taken, Focus.taken, doneLexemes]
  | key done =>
    simp only [take] at h
    split at h <;> cases h
    simp [Build.taken, Focus.taken]
  | colon done key =>
    simp only [take] at h
    split at h <;> cases h
    simp [Build.taken, Focus.taken, Frame.taken]
  | complete v => simpa [Build.taken, Focus.taken] using taken_resume h

/-- A run takes the lexemes it is given. -/
theorem Build.taken_run {b b' : Build} {ls : List Lexeme} (hls : ∀ l ∈ ls, l.Plain)
    (h : ls.foldlM Build.take b = some b') : b'.taken = b.taken ++ ls := by
  induction ls generalizing b with
  | nil => cases h; simp
  | cons l ls ih =>
    obtain ⟨hl, hls⟩ := List.forall_mem_cons.1 hls
    rw [List.foldlM_cons] at h
    obtain ⟨next, hnext, hrun⟩ := Option.bind_eq_some_iff.1 h
    rw [ih hls hrun, taken_take hl hnext, List.append_assoc]
    rfl

theorem Build.finish_eq_some_iff {b : Build} {v : Json} :
    b.finish = some v ↔ b = ⟨[], .complete v⟩ := by
  obtain ⟨outer, focus⟩ := b
  cases focus <;> cases outer <;> simp [finish]

/-! ## Completing a value -/

/-- No value begins with the end of an array, so the first item may stand where any other may. -/
theorem Build.run_firstItem (outer : List Frame) (v : Json) (vs : List Json) (ls : List Lexeme) :
    (itemLexemes (v :: vs) ++ ls).foldlM Build.take ⟨outer, .firstItem⟩ =
      (itemLexemes (v :: vs) ++ ls).foldlM Build.take ⟨.item [] :: outer, .value⟩ := by
  cases vs <;> cases v <;> rfl

/-- The first member may stand where any other may. -/
theorem Build.run_firstKey (outer : List Frame) (m : Option String × Json)
    (ms : List (Option String × Json)) (ls : List Lexeme) :
    (memberLexemes (m :: ms) ++ ls).foldlM Build.take ⟨outer, .firstKey⟩ =
      (memberLexemes (m :: ms) ++ ls).foldlM Build.take ⟨outer, .key []⟩ := by
  obtain ⟨key, v⟩ := m
  cases ms <;> rfl

-- The recursion is that of the value; what stands around it changes from call to call.
mutual

/-- The lexemes of a value complete it, in any surroundings. -/
theorem Build.run_value : ∀ (v : Json) (outer : List Frame),
    v.lexemes.foldlM Build.take ⟨outer, .value⟩ = some ⟨outer, .complete v⟩
  | .null, _ => rfl
  | .bool _, _ => rfl
  | .number _, _ => rfl
  | .string _, _ => rfl
  | .array [], _ => rfl
  | .array (v :: vs), outer =>
    (Build.run_firstItem outer v vs _).trans (Build.run_items (v :: vs) nofun outer [])
  | .object [], _ => rfl
  | .object (m :: ms), outer =>
    (Build.run_firstKey outer m ms _).trans (Build.run_members (m :: ms) nofun outer [])

/-- Values between commas and the closing bracket complete an array that has begun. -/
theorem Build.run_items : ∀ (vs : List Json), vs ≠ [] → ∀ (outer : List Frame) (done : List Json),
    (itemLexemes vs ++ [Lexeme.closeBracket]).foldlM Build.take ⟨.item done :: outer, .value⟩ =
      some ⟨outer, .complete (.array (done.reverse ++ vs))⟩
  | [], h, _, _ => absurd rfl h
  | [v], _, outer, done => by
    rw [itemLexemes, List.foldlM_append, Build.run_value v]
    simp [take, resume]
  | v :: w :: ws, _, outer, done => by
    have hrest := Build.run_items (w :: ws) nofun outer (v :: done)
    rw [itemLexemes_cons (List.cons_ne_nil w ws), List.append_assoc, List.foldlM_append,
      Build.run_value v]
    simpa [take, resume] using hrest

/-- Members between commas and the closing brace complete an object that has begun. -/
theorem Build.run_members : ∀ (ms : List (Option String × Json)), ms ≠ [] →
    ∀ (outer : List Frame) (done : List (Option String × Json)),
    (memberLexemes ms ++ [Lexeme.closeBrace]).foldlM Build.take ⟨outer, .key done⟩ =
      some ⟨outer, .complete (.object (done.reverse ++ ms))⟩
  | [], h, _, _ => absurd rfl h
  | [(key, v)], _, outer, done => by
    have hvalue := Build.run_value v (.member done key :: outer)
    rw [memberLexemes, List.cons_append, List.cons_append]
    simp [take, resume, hvalue]
  | (key, v) :: n :: ns, _, outer, done => by
    have hvalue := Build.run_value v (.member done key :: outer)
    have hrest := Build.run_members (n :: ns) nofun outer ((key, v) :: done)
    rw [memberLexemes_cons (List.cons_ne_nil n ns), List.cons_append, List.cons_append,
      List.append_assoc]
    simpa [take, resume, hvalue] using hrest

end

/-- A text is read as a value if and only if it is cut into the lexemes of the value. -/
theorem parse?_eq_some_iff {text : String} {v : Json} :
    parse? text = some v ↔ lexemes? .between text.toList = some v.lexemes := by
  rw [parse?_eq]
  refine ⟨fun h => ?_, fun h => ?_⟩
  · obtain ⟨ls, hls, hbuild⟩ := Option.bind_eq_some_iff.1 h
    obtain ⟨b, hrun, hfinish⟩ := Option.bind_eq_some_iff.1 hbuild
    rw [Build.finish_eq_some_iff] at hfinish
    subst hfinish
    have htaken := Build.taken_run (plain_of_lexemes? hls) hrun
    rw [hls]
    exact congrArg some htaken.symm
  · rw [h, Option.bind_eq_bind, Option.bind_some, Build.start, Build.run_value v []]
    rfl

end LabelFlow.Json
