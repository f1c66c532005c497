/-
# The longest key at the beginning of a text

Keys in lexicographic order, as a binary search sees them: how far two strings
agree, which keys lie below a text, and why the longest key that begins a text is
a prefix of the last key below it.
-/

import Mathlib.Data.Nat.Notation
import Mathlib.Data.List.Basic

namespace SearchTools.Library

universe u

/-! ## Common prefixes -/

section Common

variable {α : Type u} [DecidableEq α] {s t : List α}

/-- The length of the longest common prefix. -/
def lcp : List α → List α → ℕ
  | a :: s, b :: t => if a = b then lcp s t + 1 else 0
  | _, _ => 0

@[simp]
theorem lcp_nil_left (t : List α) : lcp [] t = 0 := by cases t <;> rfl

@[simp]
theorem lcp_nil_right (s : List α) : lcp s [] = 0 := by cases s <;> rfl

@[simp]
theorem lcp_cons_self (a : α) (s t : List α) : lcp (a :: s) (a :: t) = lcp s t + 1 := if_pos rfl

theorem lcp_cons_of_ne {a b : α} (h : a ≠ b) (s t : List α) : lcp (a :: s) (b :: t) = 0 := if_neg h

/-- Two strings agree up to a length within their common prefix. -/
theorem le_lcp_iff {n : ℕ} : n ≤ lcp s t ↔ n ≤ s.length ∧ n ≤ t.length ∧ s.take n = t.take n := by
  induction s generalizing t n with
  | nil =>
      rw [lcp_nil_left, List.length_nil]
      constructor
      · intro h
        obtain rfl := Nat.le_zero.mp h
        exact ⟨Nat.le_refl 0, Nat.zero_le _, rfl⟩
      · exact fun h => h.1
  | cons a s ih =>
      cases t with
      | nil =>
          rw [lcp_nil_right, List.length_nil]
          constructor
          · intro h
            obtain rfl := Nat.le_zero.mp h
            exact ⟨Nat.zero_le _, Nat.le_refl 0, rfl⟩
          · exact fun h => h.2.1
      | cons b t =>
          cases n with
          | zero => simp
          | succ n =>
              by_cases hab : a = b
              · subst hab
                simp [ih]
              · simp [lcp_cons_of_ne hab, hab]

theorem lcp_le_left (s t : List α) : lcp s t ≤ s.length := (le_lcp_iff.mp (Nat.le_refl _)).1

theorem lcp_le_right (s t : List α) : lcp s t ≤ t.length := (le_lcp_iff.mp (Nat.le_refl _)).2.1

/-- The common prefix goes on while the two strings do and agree. -/
theorem succ_le_lcp_iff {n : ℕ} :
    n + 1 ≤ lcp s t ↔ n ≤ lcp s t ∧ ∃ a, s[n]? = some a ∧ t[n]? = some a := by
  induction s generalizing t n with
  | nil => simp
  | cons a s ih =>
      cases t with
      | nil => simp
      | cons b t =>
          by_cases hab : a = b
          · subst hab
            cases n with
            | zero => simp
            | succ n => simp [ih]
          · cases n with
            | zero => simp [lcp_cons_of_ne hab, Ne.symm hab]
            | succ n => simp [lcp_cons_of_ne hab]

/-- A string begins another one if they agree as far as it goes. -/
theorem prefix_iff_le_lcp : s <+: t ↔ s.length ≤ lcp s t := by
  rw [le_lcp_iff, List.prefix_iff_eq_take, List.take_length]
  constructor
  · intro h
    refine ⟨Nat.le_refl _, ?_, h⟩
    have hlen := congrArg List.length h
    rw [List.length_take] at hlen
    omega
  · exact fun h => h.2.2

/-- A prefix of a string begins a text if it ends within the common prefix. -/
theorem prefix_iff_length_le_lcp {p : List α} (hp : p <+: s) : p <+: t ↔ p.length ≤ lcp s t := by
  have hlen := hp.length_le
  have htake := List.prefix_iff_eq_take.mp hp
  rw [le_lcp_iff, List.prefix_iff_eq_take, ← htake]
  constructor
  · intro h
    refine ⟨hlen, ?_, h⟩
    have := congrArg List.length h
    rw [List.length_take] at this
    omega
  · exact fun h => h.2.2

end Common

/-! ## Lexicographic order -/

section Order

variable {α : Type u} [LT α] [LE α] [Std.LawfulOrderLT α]

/-- In a sorted list of keys a later one is not smaller. -/
theorem le_of_sorted {keys : List (List α)} (hsorted : keys.Pairwise (· < ·)) {i j : ℕ}
    {x y : List α} (hx : keys[i]? = some x) (hy : keys[j]? = some y) (hij : i ≤ j) : x ≤ y := by
  rcases Nat.lt_or_eq_of_le hij with hlt | rfl
  · obtain ⟨hi, rfl⟩ := List.getElem?_eq_some_iff.mp hx
    obtain ⟨hj, rfl⟩ := List.getElem?_eq_some_iff.mp hy
    exact List.le_of_lt (List.pairwise_iff_getElem.mp hsorted i j hi hj hlt)
  · rw [hx] at hy
    obtain rfl := Option.some.inj hy
    exact List.le_refl x

variable [Std.IsLinearOrder α] {s t : List α}

/-- Cutting two strings at the same length keeps their order. -/
theorem take_le_take (h : s ≤ t) (n : ℕ) : s.take n ≤ t.take n := by
  induction n generalizing s t with
  | zero => simp
  | succ n ih =>
      cases s with
      | nil => simp
      | cons a s =>
          cases t with
          | nil => simp at h
          | cons b t =>
              rw [List.take_succ_cons, List.take_succ_cons]
              rcases List.cons_le_cons_iff.mp h with hlt | ⟨rfl, hle⟩
              · exact List.cons_le_cons_iff.mpr (Or.inl hlt)
              · exact List.cons_le_cons_iff.mpr (Or.inr ⟨rfl, ih hle⟩)

variable [DecidableEq α]

/-- Between two strings that agree with a text up to some length, every string does. -/
theorem min_lcp_le {x y z : List α} (hxy : x ≤ y) (hyz : y ≤ z) (t : List α) :
    min (lcp x t) (lcp z t) ≤ lcp y t := by
  have hx := le_lcp_iff.mp (Nat.min_le_left (lcp x t) (lcp z t))
  have hz := le_lcp_iff.mp (Nat.min_le_right (lcp x t) (lcp z t))
  generalize min (lcp x t) (lcp z t) = n at hx hz
  have htake : y.take n = t.take n := by
    apply List.le_antisymm
    · rw [← hz.2.2]
      exact take_le_take hyz n
    · rw [← hx.2.2]
      exact take_le_take hxy n
  refine le_lcp_iff.mpr ⟨?_, hx.2.1, htake⟩
  have hlen := congrArg List.length htake
  rw [List.length_take, List.length_take] at hlen
  have := hx.2.1
  omega

/-- A prefix of a text is a prefix of every string between the two. -/
theorem prefix_of_le_of_le {p : List α} (hp : p <+: t) (hps : p ≤ s) (hst : s ≤ t) : p <+: s := by
  have hself : p.length ≤ lcp p p := prefix_iff_le_lcp.mp (List.prefix_refl p)
  have htext : p.length ≤ lcp t p := by
    have h := le_lcp_iff.mp (prefix_iff_le_lcp.mp hp)
    exact le_lcp_iff.mpr ⟨h.2.1, h.1, h.2.2.symm⟩
  have hle := le_lcp_iff.mp
    (Nat.le_trans (Nat.le_min.mpr ⟨hself, htext⟩) (min_lcp_le hps hst p))
  rw [List.prefix_iff_eq_take, hle.2.2, List.take_length]

/-- Where a string and a text part decides which one comes first. -/
theorem le_iff_parting : s ≤ t ↔ lcp s t = s.length ∨
    ∃ a b, s[lcp s t]? = some a ∧ t[lcp s t]? = some b ∧ a < b := by
  induction s generalizing t with
  | nil => simp
  | cons a s ih =>
      cases t with
      | nil => simp
      | cons b t =>
          rw [List.cons_le_cons_iff]
          by_cases hab : a = b
          · subst hab
            simp [ih, Std.lt_irrefl]
          · simp [lcp_cons_of_ne hab, hab]

/-- The keys that begin a text are the prefixes of the last key below the text that
end within what it has in common with the text. -/
theorem prefix_iff_of_last {keys : List (List α)} (hsorted : keys.Pairwise (· < ·)) {i : ℕ}
    {last : List α} (hlast : keys[i]? = some last)
    (hbelow : ∀ k x, keys[k]? = some x → (x ≤ t ↔ k ≤ i)) {p : List α} (hp : p ∈ keys) :
    p <+: t ↔ p <+: last ∧ p.length ≤ lcp last t := by
  constructor
  · intro hpt
    obtain ⟨k, hk⟩ := List.getElem?_of_mem hp
    have hki : k ≤ i := (hbelow k p hk).mp hpt.le
    have hpre : p <+: last := prefix_of_le_of_le hpt (le_of_sorted hsorted hk hlast hki)
      ((hbelow i last hlast).mpr (Nat.le_refl i))
    exact ⟨hpre, (prefix_iff_length_le_lcp hpre).mp hpt⟩
  · rintro ⟨hpre, hlen⟩
    exact (prefix_iff_length_le_lcp hpre).mpr hlen

end Order

end SearchTools.Library
