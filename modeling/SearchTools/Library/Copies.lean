/-
# Lists with copies

A list in which every entry stands several times in a row. A search in it finds
what a search in the original list finds, and removing the first hit as often as
entries stand there removes it from the original list.
-/

import Mathlib.Logic.Function.Iterate

namespace SearchTools.Library

variable {α : Type*}

/-- Every entry `k` times. -/
def copies (k : ℕ) (xs : List α) : List α := xs.flatMap (List.replicate k)

theorem copies_cons (k : ℕ) (x : α) (xs : List α) :
    copies k (x :: xs) = List.replicate k x ++ copies k xs := List.flatMap_cons

theorem copies_concat (k : ℕ) (xs : List α) (x : α) :
    copies k (xs ++ [x]) = copies k xs ++ List.replicate k x := by
  rw [copies, List.flatMap_append, List.flatMap_singleton]
  rfl

/-- A search finds the same entry. -/
theorem find?_copies {k : ℕ} (hk : 0 < k) (p : α → Bool) (xs : List α) :
    (copies k xs).find? p = xs.find? p := by
  induction xs with
  | nil => rfl
  | cons x xs ih =>
      rw [copies_cons, List.find?_append, List.find?_replicate_of_length_pos hk, ih]
      cases hx : p x with
      | false => rw [List.find?_cons_of_neg (ne_true_of_eq_false hx)]; rfl
      | true => rw [List.find?_cons_of_pos hx]; rfl

/-- Removing a hit from behind entries that are none. -/
theorem iterate_eraseP_append (j : ℕ) {p : α → Bool} {xs : List α} (hxs : ∀ x ∈ xs, ¬ p x)
    (ys : List α) : (List.eraseP p)^[j] (xs ++ ys) = xs ++ (List.eraseP p)^[j] ys := by
  induction j generalizing ys with
  | zero => rfl
  | succ j ih =>
      rw [Function.iterate_succ_apply, List.eraseP_append_right ys hxs, ih]
      rfl

theorem iterate_eraseP_replicate (j : ℕ) {p : α → Bool} {x : α} (hx : p x) (ys : List α) :
    (List.eraseP p)^[j] (List.replicate j x ++ ys) = ys := by
  induction j with
  | zero => rfl
  | succ j ih =>
      rw [Function.iterate_succ_apply, List.replicate_succ, List.cons_append,
        List.eraseP_cons_of_pos hx]
      exact ih

/-- Removing the first hit once for each copy. -/
theorem iterate_eraseP_copies (k : ℕ) (p : α → Bool) (xs : List α) :
    (List.eraseP p)^[k] (copies k xs) = copies k (xs.eraseP p) := by
  induction xs with
  | nil => exact Function.iterate_fixed rfl k
  | cons x xs ih =>
      by_cases hx : p x
      · rw [copies_cons, iterate_eraseP_replicate k hx, List.eraseP_cons_of_pos hx]
      · have hcopies : ∀ y ∈ List.replicate k x, ¬ p y := by
          intro y hy
          rw [List.eq_of_mem_replicate hy]
          exact hx
        rw [copies_cons, iterate_eraseP_append k hcopies, ih, List.eraseP_cons_of_neg hx,
          copies_cons]

end SearchTools.Library
