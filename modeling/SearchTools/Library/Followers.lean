/-
# The second-order chain of a sequence

For a sequence `T` the followers of a pair `(a, b)` are the entries that come
right after a consecutive occurrence of `a, b`, in order of occurrence and with
multiplicity. This is the chain a text generator walks; the module names no
table and no program.
-/

import Mathlib.Data.List.Infix

namespace SearchTools.Library

variable {α : Type*} [DecidableEq α]

/-- Everything that follows an occurrence of `a, b` in the sequence. -/
def followers (a b : α) : List α → List α
  | x :: y :: z :: rest =>
      (if x = a ∧ y = b then [z] else []) ++ followers a b (y :: z :: rest)
  | _ => []

/-- A follower is a third entry of a window of the sequence. -/
theorem mem_followers {a b c : α} {T : List α} :
    c ∈ followers a b T ↔ [a, b, c] <:+: T := by
  induction T with
  | nil => simp [followers]
  | cons x tail ih =>
      rw [List.infix_cons_iff]
      match tail with
      | [] => simp [followers]
      | [y] => simpa [followers, List.cons_prefix_cons] using ih
      | y :: z :: rest =>
          rw [← ih, followers, List.mem_append]
          refine or_congr ?_ Iff.rfl
          by_cases hxy : x = a ∧ y = b
          · simp [hxy, List.cons_prefix_cons]
          · rw [if_neg hxy, iff_false_left (List.not_mem_nil)]
            rintro hwindow
            simp only [List.cons_prefix_cons] at hwindow
            exact hxy ⟨hwindow.1.symm, hwindow.2.1.symm⟩

/-- Appending one entry adds at most one follower: the new entry, to the pair
that used to end the sequence. -/
theorem followers_concat (a b x y z : α) (T : List α) :
    followers a b (T ++ [x, y] ++ [z]) =
      followers a b (T ++ [x, y]) ++ if x = a ∧ y = b then [z] else [] := by
  induction T with
  | nil => simp [followers]
  | cons u tail ih =>
      match tail with
      | [] => simp [followers]
      | [v] => simp [followers]
      | v :: w :: rest =>
          simp only [List.cons_append, followers, List.append_assoc] at ih ⊢
          rw [ih]

/-- The windows of an extended sequence are the old ones and the last one. -/
theorem window_concat {a b c x y z : α} {T : List α} :
    [a, b, c] <:+: T ++ [x, y] ++ [z] ↔
      [a, b, c] <:+: T ++ [x, y] ∨ (x = a ∧ y = b) ∧ c = z := by
  rw [← mem_followers, followers_concat, List.mem_append, mem_followers]
  by_cases h : x = a ∧ y = b <;> simp [h]

omit [DecidableEq α] in
/-- A window that does not end the sequence can be shifted by one. -/
theorem window_shift {a b c : α} {T : List α} (hwindow : [a, b, c] <:+: T)
    (hlast : T.getLast? ≠ some c) : ∃ d, [b, c, d] <:+: T := by
  obtain ⟨before, after, rfl⟩ := hwindow
  match after with
  | [] => simp at hlast
  | d :: after => exact ⟨d, before ++ [a], after, by simp⟩

/-- The followers of a pair as a table entry: a pair without followers has no
entry, any other pair lists its followers from the last occurrence back. -/
def chainEntry (T : List α) (pair : α × α) : Option (List α) :=
  match followers pair.1 pair.2 T with
  | [] => none
  | c :: rest => some (c :: rest).reverse

theorem chainEntry_eq_some_iff {T : List α} {pair : α × α} {entry : List α} :
    chainEntry T pair = some entry ↔
      entry = (followers pair.1 pair.2 T).reverse ∧ entry ≠ [] := by
  unfold chainEntry
  cases followers pair.1 pair.2 T with
  | nil => simp
  | cons c rest =>
      constructor
      · rintro ⟨⟩
        exact ⟨rfl, by simp⟩
      · rintro ⟨rfl, _⟩
        rfl

/-- An entry exists exactly when the pair occurs with a further entry after it. -/
theorem chainEntry_isSome_iff (T : List α) (pair : α × α) :
    (chainEntry T pair).isSome ↔ ∃ c, [pair.1, pair.2, c] <:+: T := by
  simp only [← mem_followers, chainEntry]
  cases followers pair.1 pair.2 T with
  | nil => simp
  | cons c rest => simp

/-- Appending one entry pushes it to the front of the list of the pair that
ended the sequence and touches no other pair. -/
theorem chainEntry_concat (T : List α) (x y z : α) (pair : α × α) :
    chainEntry (T ++ [x, y] ++ [z]) pair =
      if pair = (x, y) then some (z :: (chainEntry (T ++ [x, y]) pair).getD [])
      else chainEntry (T ++ [x, y]) pair := by
  obtain ⟨a, b⟩ := pair
  unfold chainEntry
  rw [followers_concat]
  by_cases h : x = a ∧ y = b
  · obtain ⟨rfl, rfl⟩ := h
    cases followers x y (T ++ [x, y]) <;> simp
  · have hne : (a, b) ≠ (x, y) := by
      rintro ⟨rfl, rfl⟩
      exact h ⟨rfl, rfl⟩
    simp [h, hne]

end SearchTools.Library
