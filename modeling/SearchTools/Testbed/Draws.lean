/-
# The random source of the testbed

`my_rand_r` as a generator modulo `2 ^ 32`: its seeds are one cycle, whose parity
alternates, and a property of the draws after any number of steps is counted on the
numbers below `2 ^ 32`.
-/

import Mathlib.Data.Int.CardIntervalMod
import Mathlib.Data.Set.Card
import SearchTools.Library.Congruential
import SearchTools.Testbed.Generate

namespace SearchTools.Testbed

open Function SearchTools.Library

/-- The state update of `my_rand_r`. -/
def nextSeed (seed : UInt32) : UInt32 := (myRandR seed).2

theorem congruential_nextSeed : Congruential 32 1103515245 12345 nextSeed UInt32.toNat where
  lt := UInt32.toNat_lt
  injective _ _ := UInt32.toNat_inj.mp
  num_step seed := by
    show (seed * 1103515245 + 12345).toNat = _
    rw [UInt32.toNat_add, UInt32.toNat_mul, Nat.mod_add_mod, Nat.mul_comm]
    simp only [UInt32.reduceToNat]
  multiplier := rfl
  increment := rfl

instance finite_uint32 : Finite UInt32 :=
  Finite.of_injective UInt32.toFin fun _ _ => UInt32.toFin_inj.mp

/-- The draw after `n` others. -/
theorem myRandR_iterate (seed : UInt32) (n : ℕ) :
    (myRandR (nextSeed^[n] seed)).1 = (nextSeed^[n + 1] seed).toNat % 2 ^ 31 := by
  rw [iterate_succ_apply']
  rfl

/-- The seeds of each parity after `n` steps. -/
theorem nextSeed_iterate_mod_two (seed : UInt32) (n : ℕ) :
    (nextSeed^[n] seed).toNat % 2 = (seed.toNat + n) % 2 :=
  congruential_nextSeed.num_iterate_mod_two (by decide) seed n

/-- Whatever the seed, `my_rand_r` is back at it for the first time after `2 ^ 32`
steps. Every seed is reached from every other one, and different seeds stay
different after equally many steps. -/
theorem nextSeed_cycle :
    (∀ seed, minimalPeriod nextSeed seed = 2 ^ 32) ∧
      (∀ seed n, nextSeed^[n] seed = seed ↔ 2 ^ 32 ∣ n) ∧
      (∀ seed other, ∃ n < 2 ^ 32, nextSeed^[n] seed = other) ∧
      ∀ n seed other, seed ≠ other → nextSeed^[n] seed ≠ nextSeed^[n] other := by
  refine ⟨congruential_nextSeed.minimalPeriod_eq, congruential_nextSeed.iterate_eq_iff,
    congruential_nextSeed.exists_iterate_eq, ?_⟩
  intro n seed other hne heq
  exact hne (congruential_nextSeed.iterate_injective n heq)

/-- The seeds that lead to a number with a property after `n` steps are as many as
the numbers with the property. -/
theorem ncard_nextSeed_iterate (P : ℕ → Prop) [DecidablePred P] (n : ℕ) :
    {seed | P (nextSeed^[n] seed).toNat}.ncard = Nat.count P (2 ^ 32) := by
  rw [Nat.count_eq_card_filter_range, ← Set.ncard_coe_finset]
  apply Set.ncard_congr fun seed _ => (nextSeed^[n] seed).toNat
  · intro seed hseed
    exact Finset.mem_coe.mpr
      (Finset.mem_filter.mpr ⟨Finset.mem_range.mpr (UInt32.toNat_lt _), hseed⟩)
  · intro seed other _ _ heq
    exact congruential_nextSeed.iterate_injective n (UInt32.toNat_inj.mp heq)
  · intro x hx
    rcases Finset.mem_filter.mp (Finset.mem_coe.mp hx) with ⟨hlt, hP⟩
    have hbij := Finite.injective_iff_surjective.mp (congruential_nextSeed.iterate_injective n)
    rcases hbij (UInt32.ofNat x) with ⟨seed, hseed⟩
    have hnum : (nextSeed^[n] seed).toNat = x := by
      rw [hseed]
      exact UInt32.toNat_ofNat_of_lt' (Finset.mem_range.mp hlt)
    exact ⟨seed, by rwa [Set.mem_ofPred_eq, hnum], hnum⟩

/-- A periodic property is counted period by period. -/
theorem count_mul_of_periodic {P : ℕ → Prop} [DecidablePred P] {a : ℕ}
    (hP : ∀ x, P (a + x) ↔ P x) (q b : ℕ) :
    Nat.count P (a * q + b) = q * Nat.count P a + Nat.count P b := by
  induction q with
  | zero => rw [Nat.mul_zero, Nat.zero_add, Nat.zero_mul, Nat.zero_add]
  | succ q ih =>
      have hsum : a * (q + 1) + b = a + (a * q + b) := by rw [Nat.mul_succ]; omega
      rw [hsum, Nat.count_add]
      simp only [hP]
      rw [ih, Nat.succ_mul]
      omega

theorem count_multiples_le {m : ℕ} (hm : 0 < m) (n : ℕ) :
    Nat.count (· ≡ 0 [MOD m]) n ≤ n / m + 1 := by
  rw [Nat.count_modEq_card n hm]
  split
  · exact Nat.le_refl _
  · exact Nat.le_succ _

/-- Numbers below twice the modulus are counted twice by their remainders. -/
theorem count_mod (P : ℕ → Prop) [DecidablePred P] (m : ℕ) :
    Nat.count (fun x => P (x % m)) (m + m) = 2 * Nat.count P m := by
  have hfirst : Nat.count (fun x => P (x % m)) m = Nat.count P m := by
    rw [Nat.count_eq_card_filter_range, Nat.count_eq_card_filter_range]
    congr 1
    apply Finset.filter_congr
    intro x hx
    rw [Nat.mod_eq_of_lt (Finset.mem_range.mp hx)]
  rw [Nat.count_add]
  simp only [Nat.add_mod_left]
  rw [hfirst, Nat.two_mul]

/-- `my_rand_r` cuts the highest bit off, so the seeds that draw a number with a
property are twice as many as the numbers. -/
theorem ncard_myRandR_iterate (P : ℕ → Prop) [DecidablePred P] (n : ℕ) :
    {seed | P (myRandR (nextSeed^[n] seed)).1}.ncard = 2 * Nat.count P (2 ^ 31) := by
  have hadd : (2 : ℕ) ^ 32 = 2 ^ 31 + 2 ^ 31 := by rw [← Nat.two_mul, ← pow_succ']
  simp only [myRandR_iterate]
  rw [ncard_nextSeed_iterate (fun x => P (x % 2 ^ 31)), hadd, count_mod]

end SearchTools.Testbed
