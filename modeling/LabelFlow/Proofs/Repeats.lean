import Mathlib.Data.List.Nodup

/-!
# Lists without repeats

`List.eraseDups` keeps the first of equal elements. Here is when it may change places with `map`,
`filter` and `flatMap` (`eraseDups_map`, `eraseDups_filter`, `eraseDups_flatMap`) and what it makes
of elements that are appended.
-/

set_option autoImplicit false

namespace LabelFlow

section
variable {α β : Type}

/-- What comes of different elements is different. -/
theorem nodup_flatMap_of_forall {g : α → List β} {xs : List α} (hxs : xs.Nodup)
    (hnodup : ∀ x ∈ xs, (g x).Nodup) (hinj : ∀ x y z, z ∈ g x → z ∈ g y → x = y) :
    (xs.flatMap g).Nodup :=
  List.nodup_flatMap.2 ⟨hnodup, hxs.imp fun hne z hx hy => hne (hinj _ _ z hx hy)⟩

/-- Elements that come of others are kept with them. -/
theorem filter_flatMap_of_forall {kept : α → Bool} {shown : β → Bool} {g : α → List β}
    (h : ∀ x, ∀ y ∈ g x, shown y = kept x) (xs : List α) :
    (xs.flatMap g).filter shown = (xs.filter kept).flatMap g := by
  induction xs with
  | nil => rfl
  | cons x xs ih =>
    rw [List.flatMap_cons, List.filter_append, ih, List.filter_cons]
    by_cases hx : kept x = true
    · rw [if_pos hx, List.flatMap_cons, List.filter_eq_self.2 fun y hy => (h x y hy).trans hx]
    · rw [if_neg hx, List.filter_eq_nil_iff.2 fun y hy => (h x y hy).symm ▸ hx, List.nil_append]

variable [DecidableEq α]

theorem eraseDups_nodup (xs : List α) : xs.eraseDups.Nodup := by
  match xs with
  | [] => exact List.nodup_nil
  | x :: xs =>
    rw [List.eraseDups_cons]
    refine List.nodup_cons.2 ⟨fun hx => ?_, eraseDups_nodup (xs.filter fun y => !y == x)⟩
    have hne := (List.mem_filter.1 (List.mem_eraseDups.1 hx)).2
    simp at hne
termination_by xs.length
decreasing_by exact Nat.lt_succ_of_le (List.length_filter_le _ _)

/-- Elements that are different are all kept. -/
theorem eraseDups_eq_self {xs : List α} (h : xs.Nodup) :
    xs.eraseDups = xs := by
  induction xs with
  | nil => rfl
  | cons x xs ih =>
    obtain ⟨hx, hxs⟩ := List.nodup_cons.1 h
    have hall : (xs.filter fun y => !y == x) = xs := by
      refine List.filter_eq_self.2 fun y hy => ?_
      have hne : y ≠ x := fun he => hx (he ▸ hy)
      simp [hne]
    rw [List.eraseDups_cons, hall, ih hxs]

/-- What is dropped may be dropped before or after the repeats are. -/
theorem eraseDups_filter (kept : α → Bool) (xs : List α) :
    (xs.filter kept).eraseDups = xs.eraseDups.filter kept := by
  -- `eraseDups` goes on with a part of the rest, hence the induction on the length
  induction hn : xs.length using Nat.strongRecOn generalizing xs with
  | ind n ih =>
  cases xs with
  | nil => rfl
  | cons x xs =>
    have hshorter : (xs.filter fun y => !y == x).length < n :=
      hn ▸ Nat.lt_succ_of_le (List.length_filter_le _ _)
    rw [List.eraseDups_cons, List.filter_cons, List.filter_cons, ← ih _ hshorter _ rfl,
      List.filter_filter]
    by_cases hx : kept x = true
    · rw [if_pos hx, if_pos hx, List.eraseDups_cons, List.filter_filter]
      simp only [Bool.and_comm]
    · rw [if_neg hx, if_neg hx]
      congr 1
      refine List.filter_congr fun y _ => ?_
      by_cases hy : y = x
      · rw [hy, Bool.eq_false_iff.2 hx, Bool.false_and]
      · rw [beq_eq_false_iff_ne.2 hy, Bool.not_false, Bool.and_true]

/-- Nothing comes of elements that are there already. -/
theorem eraseDups_append_of_subset {xs ys : List α} (h : ys ⊆ xs) :
    (xs ++ ys).eraseDups = xs.eraseDups := by
  have hnone : ys.removeAll xs = [] := by
    refine List.filter_eq_nil_iff.2 fun y hy => ?_
    simpa using h hy
  rw [List.eraseDups_append, hnone, List.eraseDups_nil, List.append_nil]

theorem eraseDups_append_of_mem {xs : List α} {y : α} (h : y ∈ xs) :
    (xs ++ [y]).eraseDups = xs.eraseDups :=
  eraseDups_append_of_subset (List.cons_subset.2 ⟨h, List.nil_subset xs⟩)

/-- An element that is not there is kept behind the others. -/
theorem eraseDups_append_of_not_mem {xs : List α} {y : α} (h : y ∉ xs) :
    (xs ++ [y]).eraseDups = xs.eraseDups ++ [y] := by
  have hkept : [y].removeAll xs = [y] := by
    refine List.filter_eq_self.2 fun z hz => ?_
    simpa [List.mem_singleton.1 hz] using h
  rw [List.eraseDups_append, hkept, eraseDups_eq_self (List.nodup_singleton y)]

variable [DecidableEq β]

/-- Repeats are dropped before or after a function that tells the elements apart. -/
theorem eraseDups_map {f : α → β} {xs : List α} (h : ∀ x ∈ xs, ∀ y ∈ xs, f x = f y → x = y) :
    (xs.map f).eraseDups = xs.eraseDups.map f := by
  induction hn : xs.length using Nat.strongRecOn generalizing xs with
  | ind n ih =>
  cases xs with
  | nil => rfl
  | cons x xs =>
    have hshorter : (xs.filter fun y => !y == x).length < n :=
      hn ▸ Nat.lt_succ_of_le (List.length_filter_le _ _)
    have hrest : (xs.map f).filter (fun z => !z == f x) = (xs.filter fun y => !y == x).map f := by
      rw [List.filter_map]
      refine congrArg _ (List.filter_congr fun y hy => ?_)
      have hiff : f y = f x ↔ y = x :=
        ⟨h y (List.mem_cons_of_mem _ hy) x List.mem_cons_self, congrArg f⟩
      simp [hiff]
    have hsub : ∀ {y : α}, y ∈ xs.filter (fun y => !y == x) → y ∈ x :: xs :=
      fun hy => List.mem_cons_of_mem _ (List.mem_filter.1 hy).1
    rw [List.map_cons, List.eraseDups_cons, List.eraseDups_cons, List.map_cons, hrest,
      ih _ hshorter (fun y hy z hz => h y (hsub hy) z (hsub hz)) rfl]

/-- Repeats are dropped before or after elements give way to what comes of them, if what comes of
different ones is different. -/
theorem eraseDups_flatMap {g : α → List β} {xs : List α} (hnodup : ∀ x ∈ xs, (g x).Nodup)
    (hinj : ∀ x y z, z ∈ g x → z ∈ g y → x = y) :
    (xs.flatMap g).eraseDups = xs.eraseDups.flatMap g := by
  induction hn : xs.length using Nat.strongRecOn generalizing xs with
  | ind n ih =>
  cases xs with
  | nil => rfl
  | cons x xs =>
    obtain ⟨hx, hxs⟩ := List.forall_mem_cons.1 hnodup
    have hshorter : (xs.filter fun y => !y == x).length < n :=
      hn ▸ Nat.lt_succ_of_le (List.length_filter_le _ _)
    have hrest : (xs.flatMap g).removeAll (g x) = (xs.filter fun y => !y == x).flatMap g := by
      refine filter_flatMap_of_forall (fun y z hz => ?_) xs
      have hiff : z ∈ g x ↔ y = x := ⟨hinj y x z hz, fun he => he ▸ hz⟩
      rw [Bool.eq_iff_iff]
      simp [hiff]
    rw [List.flatMap_cons, List.eraseDups_append, eraseDups_eq_self hx, hrest, List.eraseDups_cons,
      List.flatMap_cons, ih _ hshorter (fun y hy => hxs y (List.mem_filter.1 hy).1) rfl]

/-- Repeats may be dropped in the middle of a list first. -/
theorem eraseDups_middle (xs ys zs : List α) :
    (xs ++ ys.eraseDups ++ zs).eraseDups = (xs ++ ys ++ zs).eraseDups := by
  have hfront : (xs ++ ys.eraseDups).eraseDups = (xs ++ ys).eraseDups := by
    rw [List.eraseDups_append, List.eraseDups_append, List.removeAll, List.removeAll,
      ← eraseDups_filter, eraseDups_eq_self (eraseDups_nodup _)]
  have hback : zs.removeAll (xs ++ ys.eraseDups) = zs.removeAll (xs ++ ys) := by
    refine List.filter_congr fun z _ => ?_
    simp [List.mem_eraseDups]
  have happend : ∀ front : List α,
      (front ++ zs).eraseDups = front.eraseDups ++ (zs.removeAll front).eraseDups :=
    fun _ => List.eraseDups_append
  rw [happend, happend, hfront, hback]

end

end LabelFlow
