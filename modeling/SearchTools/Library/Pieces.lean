/-
# Pieces between separators

A list cut at every occurrence of a separator. Dropping the empty pieces before
the list is joined again loses a separator for each of them, so nothing is lost
exactly when every separator stands directly behind another entry.
-/

import Mathlib.Data.List.Flatten

namespace SearchTools.Library

variable {α : Type*}

/-! ## Joining -/

/-- A join, closed by one more separator. -/
theorem intercalate_concat (x : α) {ps : List (List α)} (hps : ps ≠ []) :
    [x].intercalate ps ++ [x] = ps.flatMap (· ++ [x]) := by
  induction ps with
  | nil => exact absurd rfl hps
  | cons p ps ih =>
      by_cases hnil : ps = []
      · rw [hnil, List.intercalate_singleton, List.flatMap_singleton]
      · rw [List.intercalate_cons_of_ne_nil hnil, List.append_assoc, ih hnil, List.flatMap_cons]

/-- Joining the pieces that are not empty gives the same if there is no other. -/
theorem flatMap_filter_eq_iff (f : List α → List α) (x : α) (ps : List (List α)) :
    (ps.filter (· ≠ [])).flatMap (fun p => f p ++ [x]) = ps.flatMap (fun p => f p ++ [x]) ↔
      ∀ p ∈ ps, p ≠ [] := by
  induction ps with
  | nil => exact iff_of_true rfl (fun p hp => absurd hp List.not_mem_nil)
  | cons p ps ih =>
      rw [List.forall_mem_cons, List.flatMap_cons]
      by_cases hp : p = []
      · rw [List.filter_cons_of_neg (by simpa using hp)]
        refine iff_of_false ?_ (fun hboth => hboth.1 hp)
        intro heq
        have hshorter : ((ps.filter (· ≠ [])).flatMap (fun p => f p ++ [x])).length ≤
            (ps.flatMap (fun p => f p ++ [x])).length :=
          (List.filter_sublist.flatMap _).length_le
        have hlength := congrArg List.length heq
        simp only [List.length_append, List.length_singleton] at hlength
        omega
      · rw [List.filter_cons_of_pos (by simpa using hp), List.flatMap_cons,
          List.append_cancel_left_eq, ih, and_iff_right hp]

/-- A function that takes a part off its argument for each entry of a list takes off all
of them. -/
theorem flatMap_append_eq {β γ : Type*} {F : List β → List γ} {f : α → List β} {g : α → List γ}
    {xs : List α} (h : ∀ x ∈ xs, ∀ rest, F (f x ++ rest) = g x ++ F rest) (rest : List β) :
    F (xs.flatMap f ++ rest) = xs.flatMap g ++ F rest := by
  induction xs with
  | nil => rfl
  | cons x xs ih =>
      rw [List.flatMap_cons, List.flatMap_cons, List.append_assoc, List.append_assoc,
        h x List.mem_cons_self, ih fun y hy => h y (List.mem_cons_of_mem _ hy)]

/-! ## Cutting -/

theorem infix_pair_cons_iff {x a : α} {xs : List α} :
    [x, x] <:+: a :: xs ↔ (a = x ∧ xs.head? = some x) ∨ [x, x] <:+: xs := by
  rw [List.infix_cons_iff, List.cons_prefix_cons]
  apply or_congr_left
  rw [eq_comm]
  apply and_congr_right
  intro _
  cases xs with
  | nil => simp
  | cons b xs => simp [eq_comm]

variable [DecidableEq α]

/-- A further entry that is no separator belongs to the last piece. -/
theorem splitOn_concat_of_ne {x b : α} (hb : b ≠ x) (xs : List α) :
    ∃ qs q, xs.splitOn x = qs ++ [q] ∧ (xs ++ [b]).splitOn x = qs ++ [q ++ [b]] := by
  induction xs with
  | nil =>
      refine ⟨[], [], List.splitOn_nil x, ?_⟩
      rw [List.nil_append, List.splitOn_cons_eq_if_modifyHead, if_neg (by simpa using hb)]
      rfl
  | cons a xs ih =>
      rcases ih with ⟨qs, q, hxs, hconcat⟩
      rw [List.cons_append, List.splitOn_cons_eq_if_modifyHead, List.splitOn_cons_eq_if_modifyHead,
        hxs, hconcat]
      by_cases ha : a = x
      · rw [if_pos (by simpa using ha), if_pos (by simpa using ha)]
        exact ⟨[] :: qs, q, rfl, rfl⟩
      · rw [if_neg (by simpa using ha), if_neg (by simpa using ha)]
        cases qs with
        | nil => exact ⟨[], a :: q, rfl, rfl⟩
        | cons p qs => exact ⟨(a :: p) :: qs, q, rfl, rfl⟩

/-- No piece before the last is empty if and only if the list does not begin with a
separator, and no two separators stand side by side; if only the pieces between two
separators matter, then the second condition is left. -/
theorem splitOn_dropLast_iff (x : α) (xs : List α) :
    ((∀ p ∈ (xs.splitOn x).dropLast, p ≠ []) ↔ xs.head? ≠ some x ∧ ¬ [x, x] <:+: xs) ∧
      ((∀ p ∈ (xs.splitOn x).tail.dropLast, p ≠ []) ↔ ¬ [x, x] <:+: xs) := by
  induction xs with
  | nil => simp
  | cons a xs ih =>
      rcases ih with ⟨hall, hinner⟩
      have hne : xs.splitOn x ≠ [] := List.splitOn_ne_nil x xs
      rw [List.splitOn_cons_eq_if_modifyHead, infix_pair_cons_iff, List.head?_cons]
      by_cases ha : a = x
      · rw [if_pos (by simpa using ha), List.dropLast_cons_of_ne_nil hne, List.tail_cons, hall]
        simp [ha, not_or]
      · rw [if_neg (by simpa using ha)]
        rcases List.exists_cons_of_ne_nil hne with ⟨p, ps, hps⟩
        rw [hps, List.tail_cons] at hinner
        rw [hps, List.modifyHead_cons, List.tail_cons, hinner]
        refine ⟨?_, by simp [ha]⟩
        have hpieces : (∀ p' ∈ ((a :: p) :: ps).dropLast, p' ≠ []) ↔ ∀ p' ∈ ps.dropLast, p' ≠ [] := by
          cases ps with
          | nil => exact Iff.rfl
          | cons q ps =>
              rw [List.dropLast_cons_of_ne_nil (List.cons_ne_nil q ps), List.forall_mem_cons]
              exact and_iff_right (List.cons_ne_nil a p)
        rw [hpieces, hinner]
        simp [ha]

end SearchTools.Library
