/-!
# A list cut at its separators

`Pieces.cut` cuts a list at every element of a class and keeps the separators beside the
stretches that follow them, so that `join` gives the list back (`join_cut`).
-/

set_option autoImplicit false

namespace LabelFlow

/-- The stretch before the first separator, then each separator with the stretch after it. -/
structure Pieces (α : Type) where
  head : List α
  tail : List (α × List α)
deriving DecidableEq, Repr

namespace Pieces

variable {α : Type}

/-- Cuts a list at each element that `isSeparator` holds of. -/
def cut (isSeparator : α → Bool) : List α → Pieces α
  | [] => ⟨[], []⟩
  | x :: xs =>
    let rest := cut isSeparator xs
    if isSeparator x then ⟨[], (x, rest.head) :: rest.tail⟩ else ⟨x :: rest.head, rest.tail⟩

/-- The stretches between the separators, in order. -/
def stretches (p : Pieces α) : List (List α) := p.head :: p.tail.map Prod.snd

/-- The separators, in order. -/
def separators (p : Pieces α) : List α := p.tail.map Prod.fst

/-- The list that was cut. -/
def join (p : Pieces α) : List α := p.head ++ p.tail.flatMap fun e => e.1 :: e.2

@[simp] theorem cut_nil (isSeparator : α → Bool) : cut isSeparator [] = ⟨[], []⟩ := rfl

theorem cut_separator {isSeparator : α → Bool} {x : α} (h : isSeparator x = true) (xs : List α) :
    cut isSeparator (x :: xs) =
      ⟨[], (x, (cut isSeparator xs).head) :: (cut isSeparator xs).tail⟩ := by
  simp [cut, h]

theorem cut_other {isSeparator : α → Bool} {x : α} (h : isSeparator x = false) (xs : List α) :
    cut isSeparator (x :: xs) = ⟨x :: (cut isSeparator xs).head, (cut isSeparator xs).tail⟩ := by
  simp [cut, h]

/-- Nothing is lost by cutting. -/
theorem join_cut (isSeparator : α → Bool) (xs : List α) : (cut isSeparator xs).join = xs := by
  induction xs with
  | nil => rfl
  | cons x xs ih =>
    cases h : isSeparator x with
    | true => simpa [cut_separator h, join] using ih
    | false => simpa [cut_other h, join] using ih

end Pieces

end LabelFlow
