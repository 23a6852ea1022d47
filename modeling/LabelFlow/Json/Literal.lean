import LabelFlow.Json

/-!
# Literals of JSON

The inside of a string literal: `unescape` gives its code points, where an escape may stand for half
of a surrogate pair, and `joinPairs` makes characters of them. Words without quotes are the three
constants and numbers (`ofWord?`, `isNumber`).
-/

set_option autoImplicit false

namespace LabelFlow.Json

/-- The value of a hexadecimal digit. -/
def hexDigit? (c : Char) : Option Nat :=
  if c.isDigit then some (c.toNat - '0'.toNat)
  else if 'a' ≤ c ∧ c ≤ 'f' then some (c.toNat - 'a'.toNat + 10)
  else if 'A' ≤ c ∧ c ≤ 'F' then some (c.toNat - 'A'.toNat + 10)
  else none

/-- The value of four hexadecimal digits. -/
def hexUnit? (a b c d : Char) : Option Nat := do
  some (((← hexDigit? a) * 16 + (← hexDigit? b)) * 256 + ((← hexDigit? c) * 16 + (← hexDigit? d)))

/-- The characters that an escape of two characters stands for. -/
def shortEscape? (c : Char) : Option Char :=
  if c = '"' ∨ c = '\\' ∨ c = '/' then some c
  else if c = 'b' then some '\x08'
  else if c = 'f' then some '\x0c'
  else if c = 'n' then some '\n'
  else if c = 'r' then some '\r'
  else if c = 't' then some '\t'
  else none

/-- The code points of the inside of a string literal. Control characters must be escaped. -/
def unescape : List Char → Option (List Nat)
  | [] => some []
  | c :: cs =>
    if c = '\\' then
      match cs with
      | [] => none
      | e :: rest =>
        if e = 'u' then
          match rest with
          | x :: y :: z :: w :: rest =>
            match hexUnit? x y z w with
            | some unit => (unescape rest).map (unit :: ·)
            | none => none
          | _ => none
        else
          match shortEscape? e with
          | some plain => (unescape rest).map (plain.toNat :: ·)
          | none => none
    else if c.toNat < 0x20 then none
    else (unescape cs).map (c.toNat :: ·)

/-- The first half of a surrogate pair. -/
def isHigh (unit : Nat) : Bool := 0xD800 ≤ unit && unit < 0xDC00

/-- The second half of a surrogate pair. -/
def isLow (unit : Nat) : Bool := 0xDC00 ≤ unit && unit < 0xE000

/-- The characters of code points, if surrogates stand in pairs only. -/
def joinPairs : List Nat → Option (List Char)
  | [] => some []
  | [unit] => if isHigh unit || isLow unit then none else some [.ofNat unit]
  | unit :: next :: rest =>
    if isHigh unit then
      if isLow next then
        (joinPairs rest).map (.ofNat (0x10000 + (unit - 0xD800) * 0x400 + (next - 0xDC00)) :: ·)
      else none
    else if isLow unit then none
    else (joinPairs (next :: rest)).map (.ofNat unit :: ·)

/-- The string with the given inside. -/
def ofInside? (inside : List Char) : Option Json :=
  (unescape inside).map fun units => .string ((joinPairs units).map String.ofList)

/-- Some digits and no more. -/
def areDigits (cs : List Char) : Bool := !cs.isEmpty && cs.all Char.isDigit

/-- Nothing, or an exponent. -/
def isExponent : List Char → Bool
  | [] => true
  | e :: cs =>
    (e == 'e' || e == 'E') &&
      match cs with
      | [] => false
      | sign :: digits => if sign = '+' ∨ sign = '-' then areDigits digits else areDigits cs

/-- What may follow the whole part of a number: a fraction, an exponent, both or nothing. -/
def isFraction : List Char → Bool
  | [] => true
  | point :: cs =>
    if point = '.' then
      !(cs.takeWhile Char.isDigit).isEmpty && isExponent (cs.dropWhile Char.isDigit)
    else isExponent (point :: cs)

/-- A number without a sign. Its whole part is zero or does not begin with one. -/
def isUnsigned : List Char → Bool
  | [] => false
  | d :: cs =>
    if d = '0' then isFraction cs else d.isDigit && isFraction (cs.dropWhile Char.isDigit)

/-- A number. -/
def isNumber : List Char → Bool
  | [] => false
  | sign :: cs => if sign = '-' then isUnsigned cs else isUnsigned (sign :: cs)

/-- The value of a word without quotes. -/
def ofWord? (word : List Char) : Option Json :=
  if word = "null".toList then some .null
  else if word = "true".toList then some (.bool true)
  else if word = "false".toList then some (.bool false)
  else if isNumber word then some (.number (.ofList word))
  else none

end LabelFlow.Json
