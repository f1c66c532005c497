/-
# Linear congruential generators

A generator modulo a power of two with multiplier 1 modulo 4 and an odd increment
has one cycle only, which passes all states. From any state it is back after `n`
steps exactly when the modulus divides `n`.
-/

import Mathlib.Algebra.Ring.GeomSum
import Mathlib.Data.Nat.GCD.Basic
import Mathlib.Data.Nat.ModEq
import Mathlib.Data.Nat.Prime.Basic
import Mathlib.Dynamics.PeriodicPts.Defs
import Mathlib.Tactic.Ring

namespace SearchTools.Library

open Finset Function

/-! ## Geometric sums -/

section Sums

variable {a : ℕ}

theorem pow_mod_four (ha : a % 4 = 1) (n : ℕ) : a ^ n % 4 = 1 := by
  rw [Nat.pow_mod, ha, Nat.one_pow]

/-- A sum of `n` odd numbers has the parity of `n`. -/
theorem geom_sum_mod_two (ha : a % 4 = 1) (n : ℕ) : (∑ i ∈ range n, a ^ i) % 2 = n % 2 := by
  induction n with
  | zero => rfl
  | succ n ih =>
      have hlast := pow_mod_four ha n
      rw [sum_range_succ]
      omega

/-- The sum and the number of its terms are divisible by the same powers of two. -/
theorem two_pow_dvd_geom_sum_iff (ha : a % 4 = 1) (k n : ℕ) :
    2 ^ k ∣ ∑ i ∈ range n, a ^ i ↔ 2 ^ k ∣ n := by
  induction k generalizing n with
  | zero => rw [Nat.pow_zero, iff_true_left (Nat.one_dvd _)]; exact Nat.one_dvd n
  | succ k ih =>
      rcases Nat.even_or_odd' n with ⟨m, hn | hn⟩
      · -- The second half of the sum is the first one times `a ^ m`.
        have hhalves : ∑ i ∈ range n, a ^ i = (∑ i ∈ range m, a ^ i) * (a ^ m + 1) := by
          rw [hn, Nat.two_mul, sum_range_add, Nat.mul_add, Nat.mul_one, Nat.add_comm, sum_mul]
          congr 1
          apply sum_congr rfl
          intro i _
          rw [pow_add, Nat.mul_comm]
        have hmod := pow_mod_four ha m
        have hfactor : a ^ m + 1 = 2 * (a ^ m / 2 + 1) := by omega
        have hodd : Odd (a ^ m / 2 + 1) := Nat.odd_iff.mpr (by omega)
        have hcoprime : Nat.Coprime (2 ^ k) (a ^ m / 2 + 1) := hodd.coprime_two_left.pow_left k
        rw [hhalves, hfactor, hn, pow_succ', Nat.mul_left_comm, Nat.mul_dvd_mul_iff_left two_pos,
          Nat.mul_dvd_mul_iff_left two_pos, hcoprime.dvd_mul_right]
        exact ih m
      · have heven : 2 ∣ 2 ^ (k + 1) := Dvd.intro_left _ (pow_succ 2 k).symm
        have hsum := geom_sum_mod_two ha n
        apply iff_of_false
        · intro hdvd
          have hzero := Nat.mod_eq_zero_of_dvd (heven.trans hdvd)
          omega
        · intro hdvd
          have hzero := Nat.mod_eq_zero_of_dvd (heven.trans hdvd)
          omega

end Sums

/-! ## The cycle -/

variable {α : Type*}

/-- The states of a generator are the numbers below `2 ^ k`, and a step from `x`
leads to `a * x + c`. -/
structure Congruential (k a c : ℕ) (step : α → α) (num : α → ℕ) : Prop where
  lt : ∀ x, num x < 2 ^ k
  injective : Injective num
  num_step : ∀ x, num (step x) = (a * num x + c) % 2 ^ k
  multiplier : a % 4 = 1
  increment : c % 2 = 1

namespace Congruential

variable {k a c : ℕ} {step : α → α} {num : α → ℕ} (gen : Congruential k a c step num)

include gen

/-- What `n` steps do. -/
theorem num_iterate (x : α) (n : ℕ) :
    num (step^[n] x) =
      (num x + ((a - 1) * num x + c) * ∑ i ∈ range n, a ^ i) % 2 ^ k := by
  obtain ⟨b, rfl⟩ : ∃ b, a = b + 1 := by
    have hmultiplier := gen.multiplier
    exact ⟨a - 1, by omega⟩
  rw [Nat.add_sub_cancel]
  induction n with
  | zero =>
      rw [iterate_zero, id, sum_range_zero, Nat.mul_zero, Nat.add_zero,
        Nat.mod_eq_of_lt (gen.lt x)]
  | succ n ih =>
      rw [iterate_succ_apply', gen.num_step, ih, Nat.add_mod, Nat.mul_mod, Nat.mod_mod,
        ← Nat.mul_mod, ← Nat.add_mod, sum_range_succ, ← geom_sum_mul_add b n]
      congr 1
      ring

/-- The generator is back where it started after the multiples of its modulus. -/
theorem iterate_eq_iff (x : α) (n : ℕ) : step^[n] x = x ↔ 2 ^ k ∣ n := by
  have hmultiplier := gen.multiplier
  have hincrement := gen.increment
  have hodd : Odd ((a - 1) * num x + c) := by
    apply Even.add_odd
    · exact Even.mul_right (Nat.even_iff.mpr (by omega)) _
    · exact Nat.odd_iff.mpr hincrement
  have hcoprime : Nat.Coprime (2 ^ k) ((a - 1) * num x + c) := hodd.coprime_two_left.pow_left k
  have hnum : num (step^[n] x) = num x ↔
      2 ^ k ∣ ((a - 1) * num x + c) * ∑ i ∈ range n, a ^ i := by
    rw [gen.num_iterate]
    nth_rewrite 3 [← Nat.mod_eq_of_lt (gen.lt x)]
    exact Nat.add_modEq_left_iff
  rw [← gen.injective.eq_iff, hnum, hcoprime.dvd_mul_left, two_pow_dvd_geom_sum_iff hmultiplier]

theorem minimalPeriod_eq (x : α) : minimalPeriod step x = 2 ^ k := by
  apply Nat.dvd_antisymm
  · exact IsPeriodicPt.minimalPeriod_dvd ((gen.iterate_eq_iff x _).mpr (Nat.dvd_refl _))
  · exact (gen.iterate_eq_iff x _).mp (isPeriodicPt_minimalPeriod step x)

/-- No two states come together. -/
theorem iterate_injective (n : ℕ) : Injective step^[n] := by
  apply Injective.iterate
  intro x y hxy
  have hpos : 2 ^ k - 1 + 1 = 2 ^ k := Nat.sub_add_cancel Nat.one_le_two_pow
  have hx := (gen.iterate_eq_iff x (2 ^ k)).mpr (Nat.dvd_refl _)
  have hy := (gen.iterate_eq_iff y (2 ^ k)).mpr (Nat.dvd_refl _)
  rw [← hpos, iterate_succ_apply] at hx hy
  rw [← hx, ← hy, hxy]

/-- Every state is reached from every other one, within one turn of the cycle. -/
theorem exists_iterate_eq (x y : α) : ∃ n < 2 ^ k, step^[n] x = y := by
  let orbit (n : Fin (2 ^ k)) : Fin (2 ^ k) := ⟨num (step^[n] x), gen.lt _⟩
  have horbit : Injective orbit := by
    intro m n hmn
    apply Fin.ext
    apply @iterate_injOn_Iio_minimalPeriod α step x
    · rw [Set.mem_Iio, gen.minimalPeriod_eq]
      exact m.isLt
    · rw [Set.mem_Iio, gen.minimalPeriod_eq]
      exact n.isLt
    · exact gen.injective (Fin.ext_iff.mp hmn)
  rcases Finite.injective_iff_surjective.mp horbit ⟨num y, gen.lt y⟩ with ⟨n, hn⟩
  exact ⟨n, n.isLt, gen.injective (Fin.ext_iff.mp hn)⟩

/-- A step changes the parity. -/
theorem num_step_mod_two (hk : 0 < k) (x : α) : num (step x) % 2 = (num x + 1) % 2 := by
  have hmultiplier := gen.multiplier
  have hincrement := gen.increment
  have heven : 2 ∣ 2 ^ k := dvd_pow_self 2 (Nat.ne_of_gt hk)
  rw [gen.num_step, Nat.mod_mod_of_dvd _ heven, Nat.add_mod, Nat.mul_mod]
  have hodd : a % 2 = 1 := by omega
  rw [hodd, hincrement, Nat.one_mul, Nat.mod_mod, ← Nat.add_mod_mod]
  omega

theorem num_iterate_mod_two (hk : 0 < k) (x : α) (n : ℕ) :
    num (step^[n] x) % 2 = (num x + n) % 2 := by
  induction n with
  | zero => rfl
  | succ n ih =>
      have hstep := gen.num_step_mod_two hk (step^[n] x)
      rw [iterate_succ_apply']
      omega

end Congruential

end SearchTools.Library
