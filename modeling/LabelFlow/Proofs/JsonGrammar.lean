import LabelFlow.Json.Library

/-!
# The grammar of JSON

`Json.Denotes cs v` says by the rules of the grammar that the characters denote the value. It is not
about a reader: the rules give all texts of a value, with blanks wherever they may stand and
characters escaped in any way. `Json.Library.Conforms` is what is relied on in a library for JSON:
it reads every text of a value, writes one of them, and takes apart what has the expected form; how
it does so and what it refuses is left open.
-/

set_option autoImplicit false

namespace LabelFlow.Json

/-- Spaces, tabs, line feeds and carriage returns. -/
def Blanks (cs : List Char) : Prop := ∀ c ∈ cs, c ∈ [' ', '\t', '\n', '\r']

instance (cs : List Char) : Decidable (Blanks cs) :=
  List.decidableBAll (fun c => c ∈ [' ', '\t', '\n', '\r']) cs

/-- What each of the four characters is, all blanks are. -/
theorem Blanks.forall {cs : List Char} {p : Char → Bool} (h : Blanks cs)
    (hp : [' ', '\t', '\n', '\r'].all p = true) : ∀ c ∈ cs, p c = true :=
  fun c hc => List.all_eq_true.1 hp c (h c hc)

/-! ## Numbers -/

/-- At least one digit, and nothing else. -/
structure Digits (cs : List Char) : Prop where
  ne_nil : cs ≠ []
  digits : ∀ c ∈ cs, c.isDigit = true

/-- The whole part of a number. Zero stands alone, no other begins with it. -/
inductive Whole : List Char → Prop
  | zero : Whole ['0']
  | digits {d : Char} {ds : List Char} (hne : d ≠ '0') (h : Digits (d :: ds)) : Whole (d :: ds)

/-- Nothing, or a point and digits. -/
inductive Fraction : List Char → Prop
  | none : Fraction []
  | digits {ds : List Char} (h : Digits ds) : Fraction ('.' :: ds)

/-- Nothing, or an exponent, which may have a sign. -/
inductive Exponent : List Char → Prop
  | none : Exponent []
  | plain {e : Char} {ds : List Char} (he : e = 'e' ∨ e = 'E') (h : Digits ds) : Exponent (e :: ds)
  | signed {e sign : Char} {ds : List Char} (he : e = 'e' ∨ e = 'E')
    (hsign : sign = '+' ∨ sign = '-') (h : Digits ds) : Exponent (e :: sign :: ds)

/-- A number. -/
inductive Numeral : List Char → Prop
  | plain {whole fraction exponent : List Char} (hw : Whole whole) (hf : Fraction fraction)
    (he : Exponent exponent) : Numeral (whole ++ (fraction ++ exponent))
  | negative {whole fraction exponent : List Char} (hw : Whole whole) (hf : Fraction fraction)
    (he : Exponent exponent) : Numeral ('-' :: (whole ++ (fraction ++ exponent)))

/-! ## Strings -/

/-- The characters that may follow a backslash alone, each with the one that it stands for. -/
def shortEscapes : List (Char × Char) :=
  [('"', '"'), ('\\', '\\'), ('/', '/'), ('b', '\x08'), ('f', '\x0c'), ('n', '\n'), ('r', '\r'),
   ('t', '\t')]

/-- A hexadecimal digit, of either case, and its value. -/
def HexDigit (c : Char) (n : Nat) : Prop := n < 16 ∧ (c = n.digitChar ∨ c = n.digitChar.toUpper)

instance (c : Char) (n : Nat) : Decidable (HexDigit c n) :=
  inferInstanceAs (Decidable (n < 16 ∧ (c = n.digitChar ∨ c = n.digitChar.toUpper)))

/-- The inside of a string literal and its code points. Quotes, backslashes and control characters
stand there escaped only. -/
inductive Inside : List Char → List Nat → Prop
  | nil : Inside [] []
  | plain {c : Char} {cs : List Char} {units : List Nat} (hquote : c ≠ '"') (hslash : c ≠ '\\')
    (hcontrol : 0x20 ≤ c.toNat) (h : Inside cs units) : Inside (c :: cs) (c.toNat :: units)
  | short {e c : Char} {cs : List Char} {units : List Nat} (he : (e, c) ∈ shortEscapes)
    (h : Inside cs units) : Inside ('\\' :: e :: cs) (c.toNat :: units)
  | unit {x y z w : Char} {k l m n : Nat} {cs : List Char} {units : List Nat} (hx : HexDigit x k)
    (hy : HexDigit y l) (hz : HexDigit z m) (hw : HexDigit w n) (h : Inside cs units) :
    Inside ('\\' :: 'u' :: x :: y :: z :: w :: cs) ((((k * 16 + l) * 16 + m) * 16 + n) :: units)

/-- Code points and the characters that they make. A character is one of them or a pair of
surrogates. -/
inductive Joined : List Nat → List Char → Prop
  | nil : Joined [] []
  | single {c : Char} {units : List Nat} {cs : List Char} (h : Joined units cs) :
    Joined (c.toNat :: units) (c :: cs)
  | pair {c : Char} {high low : Nat} {units : List Nat} {cs : List Char}
    (hhigh : 0xD800 ≤ high ∧ high < 0xDC00) (hlow : 0xDC00 ≤ low ∧ low < 0xE000)
    (hc : c.toNat = 0x10000 + (high - 0xD800) * 0x400 + (low - 0xDC00)) (h : Joined units cs) :
    Joined (high :: low :: units) (c :: cs)

/-! ## Values -/

mutual

/-- The characters are a value without blanks around it. A string whose code points make no
characters has no text. -/
inductive IsValue : List Char → Json → Prop
  | nullWord : IsValue ['n', 'u', 'l', 'l'] .null
  | trueWord : IsValue ['t', 'r', 'u', 'e'] (.bool true)
  | falseWord : IsValue ['f', 'a', 'l', 's', 'e'] (.bool false)
  | number {cs : List Char} (h : Numeral cs) : IsValue cs (.number (.ofList cs))
  | text {cs text : List Char} {units : List Nat} (h : Inside cs units) (hj : Joined units text) :
    IsValue ('"' :: (cs ++ ['"'])) (.text (.ofList text))
  | unpaired {cs : List Char} {units : List Nat} (h : Inside cs units)
    (hno : ∀ text, ¬ Joined units text) : IsValue ('"' :: (cs ++ ['"'])) (.string none)
  | array {cs : List Char} {items : List Json} (h : ItemsDenote cs items) :
    IsValue ('[' :: (cs ++ [']'])) (.array items)
  | object {cs : List Char} {members : List (Option String × Json)} (h : MembersDenote cs members) :
    IsValue ('\x7b' :: (cs ++ ['\x7d'])) (.object members)

/-- The characters denote the value: they are the value and blanks around it. -/
inductive Denotes : List Char → Json → Prop
  | padded {lead cs trail : List Char} {v : Json} (hlead : Blanks lead) (htrail : Blanks trail)
    (h : IsValue cs v) : Denotes (lead ++ (cs ++ trail)) v

/-- The characters denote values between commas. -/
inductive ItemsDenote : List Char → List Json → Prop
  | none {cs : List Char} (h : Blanks cs) : ItemsDenote cs []
  | one {cs : List Char} {v : Json} (h : Denotes cs v) : ItemsDenote cs [v]
  | more {cs ds : List Char} {v w : Json} {vs : List Json} (h : Denotes cs v)
    (hs : ItemsDenote ds (w :: vs)) : ItemsDenote (cs ++ ',' :: ds) (v :: w :: vs)

/-- The characters denote keys and values between commas. -/
inductive MembersDenote : List Char → List (Option String × Json) → Prop
  | none {cs : List Char} (h : Blanks cs) : MembersDenote cs []
  | one {ks cs : List Char} {key : Option String} {v : Json} (hkey : Denotes ks (.string key))
    (h : Denotes cs v) : MembersDenote (ks ++ ':' :: cs) [(key, v)]
  | more {ks cs ds : List Char} {key : Option String} {v : Json} {m : Option String × Json}
    {ms : List (Option String × Json)} (hkey : Denotes ks (.string key)) (h : Denotes cs v)
    (hs : MembersDenote ds (m :: ms)) :
    MembersDenote (ks ++ ':' :: (cs ++ ',' :: ds)) ((key, v) :: m :: ms)

end

theorem IsValue.denotes {cs : List Char} {v : Json} (h : IsValue cs v) : Denotes cs v := by
  have hpadded := @Denotes.padded [] cs [] v nofun nofun h
  rwa [List.append_nil, List.nil_append] at hpadded

/-- The values that anything is saved as: texts, natural numbers of 64 bits, and arrays and records
of such values. -/
inductive Printable : Json → Prop
  | text (s : String) : Printable (.text s)
  | natural {n : Nat} (h : n < UInt64.size) : Printable (.natural n)
  | array {items : List Json} (h : ∀ v ∈ items, Printable v) : Printable (.array items)
  | record {members : List (String × Json)} (h : ∀ m ∈ members, Printable m.2) :
    Printable (.record members)

/-- What is relied on in a library. A text is read as what it denotes, and what is written denotes
the value. Texts and numbers are decoded as what they are, and a record from its members in any
order, among which no field may be given twice and only those that may be left out may be missing;
members with other names make no difference. -/
structure Library.Conforms (j : Library) : Prop where
  read : ∀ {text : String} {v : Json}, Denotes text.toList v → j.read text = some v
  write : ∀ {v : Json}, Printable v → Denotes (j.write v).toList v
  text : ∀ s : String, j.text (.text s) = some s
  natural : ∀ {n : Nat}, n < UInt64.size → j.natural (.natural n) = some n
  variant : ∀ {names : List String} {name : String}, name ∈ names →
    j.variant names (.text name) = some name
  items : ∀ items : List Json, j.items (.array items) = some items
  entries : ∀ members : List (String × Json), j.entries (.record members) = some members
  fields : ∀ {fs : List Field} {members : List (String × Json)},
    (∀ f ∈ fs, (members.filter fun m => m.1 == f.name).length ≤ 1) →
    (∀ f ∈ fs, f.omission = .never → f.name ∈ members.map Prod.fst) →
    j.fields fs (.record members) = some (fs.map fun f => members.lookup f.name)

end LabelFlow.Json
