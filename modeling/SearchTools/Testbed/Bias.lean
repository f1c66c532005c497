/-
# The bias of the suffix loop

The draws of `my_rand_r` alternate in parity. Under an odd seed no even position is
chosen, while an odd one is hit as rarely as under all seeds, so the odd seeds
crowd the first of the odd positions. For four suffixes and more one of these is
chosen far too often; for three and fewer all are chosen evenly.
-/

import Mathlib.Algebra.Order.Field.Rat
import Mathlib.Algebra.BigOperators.Intervals
import Mathlib.Data.Nat.Cast.Order.Field
import Mathlib.Data.Set.Card.Arithmetic
import Mathlib.Tactic.FieldSimp
import Mathlib.Tactic.Linarith
import Mathlib.Tactic.Positivity
import SearchTools.Testbed.Choice
import SearchTools.Testbed.Draws

namespace SearchTools.Testbed

open Finset Function SearchTools.Library

/-- The number of seeds for which the loop ends with the suffix at position `i` of
`n`. -/
noncomputable def seedsFor (n i : ℕ) : ℕ := {seed | EndsAt myRandR seed n i}.ncard

/-- The number differs from `2 ^ 32 / n` by at most ten percent. -/
def WithinTenPercent (n count : ℕ) : Prop := |(count : ℚ) - 2 ^ 32 / n| ≤ (2 ^ 32 / n : ℚ) / 10

theorem seedsFor_eq {n i : ℕ} (hi : i < n) :
    seedsFor n i = {seed | LastHit myRandR seed n i}.ncard := by
  simp only [seedsFor, endsAt_iff hi]

/-- Draw `j` is made after `j` others. -/
theorem hits_myRandR (seed : UInt32) (j : ℕ) :
    Hits myRandR seed j ↔ (myRandR (nextSeed^[j] seed)).1 % (j + 1) = 0 := Iff.rfl

/-- The draws have the parity of the seeds. -/
theorem myRandR_iterate_mod_two (seed : UInt32) (j : ℕ) :
    (myRandR (nextSeed^[j] seed)).1 % 2 = (seed.toNat + j + 1) % 2 := by
  rw [myRandR_iterate, Nat.mod_mod_of_dvd _ (dvd_pow_self 2 (by decide)),
    nextSeed_iterate_mod_two, Nat.add_assoc]

/-! ## Odd seeds -/

/-- Under an odd seed the draws for the even numbers are odd. -/
theorem not_hits_of_odd {seed : UInt32} (hseed : seed.toNat % 2 = 1) {j : ℕ} (hj : j % 2 = 1) :
    ¬ Hits myRandR seed j := by
  rw [hits_myRandR]
  intro hhit
  have hparity := myRandR_iterate_mod_two seed j
  have hdvd : 2 ∣ j + 1 := Nat.dvd_of_mod_eq_zero (by omega)
  have hzero := Nat.mod_eq_zero_of_dvd (hdvd.trans (Nat.dvd_of_mod_eq_zero hhit))
  omega

theorem ncard_odd_seeds : {seed : UInt32 | seed.toNat % 2 = 1}.ncard = 2 ^ 31 := by
  have hcount : Nat.count (fun x => x % 2 = 1) (2 * 2 ^ 31 + 0) = 2 ^ 31 * 1 + 0 :=
    count_mul_of_periodic (fun x => by rw [Nat.add_mod_left]) _ 0
  have hncard := ncard_nextSeed_iterate (fun x => x % 2 = 1) 0
  rw [pow_succ', ← Nat.add_zero (2 * 2 ^ 31), hcount] at hncard
  simpa using hncard

/-- One odd seed in `2 * l + 1` hits position `2 * l`, up to rounding. -/
theorem ncard_odd_hits_le (l : ℕ) :
    {seed : UInt32 | seed.toNat % 2 = 1 ∧ Hits myRandR seed (2 * l)}.ncard ≤
      2 * (2 ^ 31 / (2 * (2 * l + 1)) + 1) := by
  let P (x : ℕ) : Prop := x ≡ 0 [MOD 2 * (2 * l + 1)]
  have hsub : {seed : UInt32 | seed.toNat % 2 = 1 ∧ Hits myRandR seed (2 * l)} ⊆
      {seed | P (myRandR (nextSeed^[2 * l] seed)).1} := by
    rintro seed ⟨hseed, hhit⟩
    have hparity := myRandR_iterate_mod_two seed (2 * l)
    have heven : 2 ∣ (myRandR (nextSeed^[2 * l] seed)).1 := Nat.dvd_of_mod_eq_zero (by omega)
    have hodd : Nat.Coprime 2 (2 * l + 1) := Nat.coprime_two_left.mpr ⟨l, rfl⟩
    exact Nat.modEq_zero_iff_dvd.mpr
      (hodd.mul_dvd_of_dvd_of_dvd heven (Nat.dvd_of_mod_eq_zero hhit))
  calc {seed : UInt32 | seed.toNat % 2 = 1 ∧ Hits myRandR seed (2 * l)}.ncard
      ≤ {seed | P (myRandR (nextSeed^[2 * l] seed)).1}.ncard := Set.ncard_le_ncard hsub
    _ = 2 * Nat.count P (2 ^ 31) := ncard_myRandR_iterate P (2 * l)
    _ ≤ 2 * (2 ^ 31 / (2 * (2 * l + 1)) + 1) :=
        Nat.mul_le_mul_left 2 (count_multiples_le (by omega) _)

/-- The odd seeds choose one of the first `t` odd positions, or hit a later one. -/
theorem odd_seeds_le {n t : ℕ} (hn : 0 < n) (ht : 2 * t ≤ n + 1) :
    2 ^ 31 ≤ ∑ m ∈ range t, seedsFor n (2 * m) +
      ∑ l ∈ Ico t ((n + 1) / 2), 2 * (2 ^ 31 / (2 * (2 * l + 1)) + 1) := by
  have hcover : {seed : UInt32 | seed.toNat % 2 = 1} ⊆
      (⋃ m ∈ range t, {seed | LastHit myRandR seed n (2 * m)}) ∪
        ⋃ l ∈ Ico t ((n + 1) / 2),
          {seed : UInt32 | seed.toNat % 2 = 1 ∧ Hits myRandR seed (2 * l)} := by
    intro seed hseed
    rcases @exists_lastHit _ myRandR seed n hn with ⟨i, hi⟩
    rcases Nat.even_or_odd' i with ⟨m, rfl | rfl⟩
    · by_cases hm : m < t
      · left
        exact Set.mem_biUnion (mem_coe.mpr (mem_range.mpr hm)) hi
      · right
        have hlt := hi.lt
        have hmem : m ∈ Ico t ((n + 1) / 2) := mem_Ico.mpr ⟨Nat.le_of_not_lt hm, by omega⟩
        exact Set.mem_biUnion (mem_coe.mpr hmem) ⟨hseed, hi.hit⟩
    · exact absurd hi.hit (not_hits_of_odd hseed (by omega))
  calc 2 ^ 31 = {seed : UInt32 | seed.toNat % 2 = 1}.ncard := ncard_odd_seeds.symm
    _ ≤ _ := Set.ncard_le_ncard hcover
    _ ≤ _ := Set.ncard_union_le _ _
    _ ≤ _ := by
        apply Nat.add_le_add
        · apply (Finset.set_ncard_biUnion_le _ _).trans
          apply sum_le_sum
          intro m hm
          have hlt := mem_range.mp hm
          exact Nat.le_of_eq (seedsFor_eq (by omega)).symm
        · apply (Finset.set_ncard_biUnion_le _ _).trans
          exact sum_le_sum fun l _ => ncard_odd_hits_le l

/-! ## The share of the first positions -/

/-- What the sum gains from one number to the next is less than the bound does. -/
theorem gain_le {t : ℚ} (ht : 0 < t) :
    1 / (4 * t + 1) + 1 / (4 * t + 3) - 1 / (2 * t + 1) ≤
      1 / (16 * t ^ 2) - 1 / (16 * (t + 1) ^ 2) := by
  have hleft : 1 / (4 * t + 1) + 1 / (4 * t + 3) - 1 / (2 * t + 1) =
      1 / ((4 * t + 1) * (4 * t + 3) * (2 * t + 1)) := by
    field_simp
    ring
  have hright : 1 / (16 * t ^ 2) - 1 / (16 * (t + 1) ^ 2) =
      (2 * t + 1) / (4 * t * (t + 1) * (4 * t * (t + 1))) := by
    field_simp
    ring
  have hfirst : 4 * t * (t + 1) ≤ (2 * t + 1) * (2 * t + 1) := by
    linarith [show (2 * t + 1) * (2 * t + 1) = 4 * t * (t + 1) + 1 by ring]
  have hsecond : 4 * t * (t + 1) ≤ (4 * t + 1) * (4 * t + 3) := by
    have hmul : 0 < t * (t + 1) := by positivity
    linarith [show (4 * t + 1) * (4 * t + 3) = 4 * t * (t + 1) + 12 * (t * (t + 1)) + 3 by ring]
  rw [hleft, hright, div_le_div_iff₀ (by positivity) (by positivity)]
  calc 1 * (4 * t * (t + 1) * (4 * t * (t + 1)))
      ≤ 1 * ((2 * t + 1) * (2 * t + 1) * ((4 * t + 1) * (4 * t + 3))) := by
        apply mul_le_mul_of_nonneg_left _ zero_le_one
        exact mul_le_mul hfirst hsecond (by positivity) (by positivity)
    _ = (2 * t + 1) * ((4 * t + 1) * (4 * t + 3) * (2 * t + 1)) := by ring

/-- The odd positions in the second half take little more than a third of the odd
seeds. -/
theorem sum_inv_odd_le {t : ℕ} (ht : 2 ≤ t) :
    ∑ l ∈ Ico t (2 * t), (1 : ℚ) / (2 * l + 1) ≤ 9 / 25 - 1 / (16 * t ^ 2) := by
  induction t, ht using Nat.le_induction with
  | base => norm_num [sum_Ico_succ_top]
  | succ t ht ih =>
      have hstep : ∑ l ∈ Ico (t + 1) (2 * (t + 1)), (1 : ℚ) / (2 * l + 1) =
          ∑ l ∈ Ico t (2 * t), (1 : ℚ) / (2 * l + 1) - 1 / (2 * t + 1) +
            1 / (4 * t + 1) + 1 / (4 * t + 3) := by
        have hlast : 2 * (t + 1) = 2 * t + 1 + 1 := by omega
        rw [hlast, sum_Ico_succ_top (by omega), sum_Ico_succ_top (by omega),
          sum_eq_sum_Ico_succ_bot (show t < 2 * t by omega)]
        push_cast
        ring
      have hcast : (2 : ℚ) ≤ t := by exact_mod_cast ht
      have hgain : (1 : ℚ) / (4 * t + 1) + 1 / (4 * t + 3) - 1 / (2 * t + 1) ≤
          1 / (16 * t ^ 2) - 1 / (16 * (t + 1) ^ 2) := gain_le (by linarith)
      rw [hstep]
      push_cast
      linarith

/-- The odd positions from the middle on, and ten percent more than their share for
those before, leave odd seeds over. -/
theorem share_lt {n : ℕ} (hlow : 4 ≤ n) (hhigh : n ≤ 65536) :
    (((n + 1) / 4 : ℕ) : ℚ) * (11 / 10 * (2 ^ 32 / n)) +
      ∑ l ∈ Ico ((n + 1) / 4) ((n + 1) / 2), ((2 ^ 31 / (2 * l + 1) + 2 : ℚ)) < 2 ^ 31 := by
  obtain ⟨t, ht⟩ : ∃ t, (n + 1) / 4 = t := ⟨_, rfl⟩
  have hn : (0 : ℚ) < n := by exact_mod_cast (by omega : 0 < n)
  have hsplit : ∀ m, ∑ l ∈ Ico t m, ((2 ^ 31 / (2 * l + 1) + 2 : ℚ)) =
      2 ^ 31 * ∑ l ∈ Ico t m, (1 : ℚ) / (2 * l + 1) + (m - t : ℕ) * 2 := by
    intro m
    rw [sum_add_distrib, sum_const, Nat.card_Ico, nsmul_eq_mul, mul_sum]
    congr 1
    apply sum_congr rfl
    intro l _
    rw [mul_one_div]
  have hshare : (t : ℚ) * (11 / 10 * (2 ^ 32 / n)) = 2 ^ 31 * (11 / 5 * (t / n)) := by ring
  have hsmall : (t : ℚ) ≤ 16384 := by exact_mod_cast (by omega : t ≤ 16384)
  rw [ht, hsplit, hshare]
  rcases (by omega : t = 1 ∨ 2 ≤ t) with rfl | hge
  · -- Four to six suffixes.
    rcases (by omega : n = 4 ∨ n = 5 ∨ n = 6) with rfl | rfl | rfl <;>
      norm_num [sum_Ico_succ_top]
  · have hcast : (2 : ℚ) ≤ t := by exact_mod_cast hge
    have hsum := sum_inv_odd_le hge
    have hbound : (0 : ℚ) < 1 / (16 * t ^ 2) := by positivity
    rcases (by omega : (n + 1) / 2 = 2 * t ∨ (n + 1) / 2 = 2 * t + 1) with hlast | hlast
    · have hcount : ((2 * t - t : ℕ) : ℚ) = t := by
        rw [Nat.two_mul, Nat.add_sub_cancel]
      have hle : (4 * t : ℚ) ≤ n + 1 := by exact_mod_cast (by omega : 4 * t ≤ n + 1)
      have hratio : (t : ℚ) / n ≤ 2 / 7 := by
        rw [div_le_div_iff₀ hn (by norm_num)]
        linarith
      rw [hlast, hcount]
      linarith
    · have hcount : ((2 * t + 1 - t : ℕ) : ℚ) = t + 1 := by
        rw [Nat.two_mul, Nat.add_assoc, Nat.add_sub_cancel_left, Nat.cast_add_one]
      have hle : (4 * t + 1 : ℚ) ≤ n := by exact_mod_cast (by omega : 4 * t + 1 ≤ n)
      have hratio : 11 / 5 * ((t : ℚ) / n) + 1 / (4 * t + 1) ≤ 3 / 5 := by
        have hfirst : (t : ℚ) / n ≤ t / (4 * t + 1) :=
          div_le_div_of_nonneg_left (by linarith) (by linarith) hle
        have hsecond : 11 / 5 * ((t : ℚ) / (4 * t + 1)) + 1 / (4 * t + 1) ≤ 3 / 5 := by
          have hpos : (0 : ℚ) < 4 * t + 1 := by linarith
          rw [← mul_div_assoc, ← add_div, div_le_div_iff₀ hpos (by norm_num)]
          linarith
        linarith
      have hend : (1 : ℚ) / (2 * (2 * t : ℕ) + 1) = 1 / (4 * t + 1) := by
        push_cast
        ring
      rw [hlast, hcount, sum_Ico_succ_top (by omega), hend]
      linarith

/-- From four suffixes on, one of the odd positions is chosen too often. -/
theorem not_withinTenPercent {n : ℕ} (hlow : 4 ≤ n) (hhigh : n ≤ 65536) :
    ¬ ∀ i < n, WithinTenPercent n (seedsFor n i) := by
  intro hall
  have hfirst : ∀ m ∈ range ((n + 1) / 4), (seedsFor n (2 * m) : ℚ) ≤ 11 / 10 * (2 ^ 32 / n) := by
    intro m hm
    have hlt := mem_range.mp hm
    have hupper := (abs_le.mp (hall (2 * m) (by omega))).2
    linarith
  have hlater : ∀ l ∈ Ico ((n + 1) / 4) ((n + 1) / 2),
      ((2 * (2 ^ 31 / (2 * (2 * l + 1)) + 1) : ℕ) : ℚ) ≤ 2 ^ 31 / (2 * l + 1) + 2 := by
    intro l _
    have hdiv := @Nat.cast_div_le ℚ _ _ _ (2 ^ 31) (2 * (2 * l + 1))
    have hhalf : (((2 : ℕ) ^ 31 : ℕ) : ℚ) / ((2 * (2 * l + 1) : ℕ) : ℚ) =
        2 ^ 31 / (2 * l + 1) / 2 := by
      rw [div_div, mul_comm (2 * (l : ℚ) + 1)]
      norm_num
    rw [hhalf] at hdiv
    rw [Nat.cast_mul, Nat.cast_add, Nat.cast_one, Nat.cast_ofNat]
    linarith
  have hodd : (2 : ℚ) ^ 31 ≤ ∑ m ∈ range ((n + 1) / 4), (seedsFor n (2 * m) : ℚ) +
      ∑ l ∈ Ico ((n + 1) / 4) ((n + 1) / 2),
        ((2 * (2 ^ 31 / (2 * (2 * l + 1)) + 1) : ℕ) : ℚ) := by
    exact_mod_cast @odd_seeds_le n ((n + 1) / 4) (by omega) (by omega)
  have hsums := add_le_add (sum_le_sum hfirst) (sum_le_sum hlater)
  rw [sum_const, card_range, nsmul_eq_mul] at hsums
  exact absurd (hodd.trans hsums) (not_le.mpr (share_lt hlow hhigh))

/-! ## Up to three suffixes -/

/-- The seeds are counted by a periodic property of one draw. -/
theorem seedsFor_eq_count {n i : ℕ} (hi : i < n) (j : ℕ) {P : ℕ → Prop} [DecidablePred P]
    (hP : ∀ seed, LastHit myRandR seed n i ↔ P (myRandR (nextSeed^[j] seed)).1) {a q b : ℕ}
    (hperiod : ∀ x, P (a + x) ↔ P x) (hsize : a * q + b = 2 ^ 31) :
    seedsFor n i = 2 * (q * Nat.count P a + Nat.count P b) := by
  rw [seedsFor_eq hi, ← count_mul_of_periodic hperiod, hsize, ← ncard_myRandR_iterate P j]
  simp only [hP]

theorem lastHit_one_iff {seed : UInt32} {i : ℕ} : LastHit myRandR seed 1 i ↔ i = 0 := by
  rw [lastHit_succ_iff, if_pos hits_zero]

theorem lastHit_two_iff {seed : UInt32} {i : ℕ} :
    LastHit myRandR seed 2 i ↔ i = 1 ∧ Hits myRandR seed 1 ∨ i = 0 ∧ ¬ Hits myRandR seed 1 := by
  rw [lastHit_succ_iff, lastHit_one_iff]
  by_cases hsecond : Hits myRandR seed 1
  · simp [hsecond]
  · simp [hsecond]

theorem lastHit_three_iff {seed : UInt32} {i : ℕ} :
    LastHit myRandR seed 3 i ↔
      i = 2 ∧ Hits myRandR seed 2 ∨ LastHit myRandR seed 2 i ∧ ¬ Hits myRandR seed 2 := by
  rw [lastHit_succ_iff]
  by_cases hthird : Hits myRandR seed 2
  · simp [hthird]
  · simp [hthird]

/-- The second draw is even when the third one is odd. -/
theorem hits_one_iff (seed : UInt32) :
    Hits myRandR seed 1 ↔ (myRandR (nextSeed^[2] seed)).1 % 2 = 1 := by
  have hsecond := myRandR_iterate_mod_two seed 1
  have hthird := myRandR_iterate_mod_two seed 2
  rw [hits_myRandR]
  omega

theorem seedsFor_one : seedsFor 1 0 = 2 ^ 32 := by
  have hP : ∀ seed, LastHit myRandR seed 1 0 ↔ (myRandR (nextSeed^[0] seed)).1 % 1 = 0 :=
    fun seed => iff_of_true (lastHit_one_iff.mpr rfl) (Nat.mod_one _)
  have hcount := @seedsFor_eq_count 1 0 Nat.one_pos 0 (fun x => x % 1 = 0) _ hP 2 (2 ^ 30) 0
    (fun x => by rw [Nat.mod_one, Nat.mod_one]) (by norm_num)
  have htwo : Nat.count (fun x => x % 1 = 0) 2 = 2 := rfl
  rw [hcount, htwo, Nat.count_zero]
  norm_num

theorem seedsFor_two {i : ℕ} (hi : i < 2) : seedsFor 2 i = 2 ^ 31 := by
  have hP : ∀ seed, LastHit myRandR seed 2 i ↔
      (myRandR (nextSeed^[1] seed)).1 % 2 = 1 - i := by
    intro seed
    rw [lastHit_two_iff, hits_myRandR]
    omega
  have hcount := @seedsFor_eq_count 2 i hi 1 (fun x => x % 2 = 1 - i) _ hP 2 (2 ^ 30) 0
    (fun x => by rw [Nat.add_mod_left]) (by norm_num)
  have hone : Nat.count (fun x => x % 2 = 1 - i) 2 = 1 := by
    rcases (by omega : i = 0 ∨ i = 1) with rfl | rfl <;> rfl
  rw [hcount, hone, Nat.count_zero]
  norm_num

/-- The third suffix takes the multiples of three, the others the odd and the even
draws among the rest. -/
theorem seedsFor_three {i : ℕ} (hi : i < 3) :
    1431655764 ≤ seedsFor 3 i ∧ seedsFor 3 i ≤ 1431655766 := by
  let P (x : ℕ) : Prop := if i = 2 then x % 3 = 0 else x % 3 ≠ 0 ∧ x % 2 = i
  have hP : ∀ seed, LastHit myRandR seed 3 i ↔ P (myRandR (nextSeed^[2] seed)).1 := by
    intro seed
    have hthird : Hits myRandR seed 2 ↔ (myRandR (nextSeed^[2] seed)).1 % 3 = 0 := Iff.rfl
    rw [lastHit_three_iff, lastHit_two_iff, hits_one_iff, hthird]
    generalize (myRandR (nextSeed^[2] seed)).1 = x
    simp only [P]
    split
    · omega
    · omega
  have hperiod : ∀ x, P (6 + x) ↔ P x := by
    intro x
    have hthree : (6 + x) % 3 = x % 3 := by omega
    have htwo : (6 + x) % 2 = x % 2 := by omega
    simp only [P, hthree, htwo]
  have hcount := seedsFor_eq_count hi 2 hP hperiod (by norm_num : 6 * 357913941 + 2 = 2 ^ 31)
  have hsix : Nat.count P 6 = 2 := by
    rcases (by omega : i = 0 ∨ i = 1 ∨ i = 2) with rfl | rfl | rfl <;> rfl
  have htwo : Nat.count P 2 ≤ 1 := by
    rcases (by omega : i = 0 ∨ i = 1 ∨ i = 2) with rfl | rfl | rfl <;> decide
  rw [hcount, hsix]
  omega

/-- The loop chooses each of `n` suffixes for a share of the seeds that is within ten
percent of `1 / n` if and only if there are at most three of them. -/
theorem seedsFor_withinTenPercent_iff (suf : List Word) (hne : suf ≠ [])
    (hlength : suf.length ≤ 65536) :
    (∀ i < suf.length, WithinTenPercent suf.length (seedsFor suf.length i)) ↔
      suf.length ≤ 3 := by
  have hpos : 0 < suf.length := List.length_pos_iff.mpr hne
  generalize suf.length = n at hlength hpos
  constructor
  · intro hall
    by_contra hmore
    exact not_withinTenPercent (Nat.not_le.mp hmore) hlength hall
  · intro hle i hi
    rw [WithinTenPercent]
    rcases (by omega : n = 1 ∨ n = 2 ∨ n = 3) with rfl | rfl | rfl
    · obtain rfl : i = 0 := by omega
      rw [seedsFor_one]
      norm_num
    · rw [seedsFor_two hi]
      norm_num
    · have hthree := seedsFor_three hi
      have hlow : (1431655764 : ℚ) ≤ seedsFor 3 i := by exact_mod_cast hthree.1
      have hhigh : (seedsFor 3 i : ℚ) ≤ 1431655766 := by exact_mod_cast hthree.2
      rw [abs_le]
      constructor
      · linarith
      · linarith

theorem seedsFor_withinTenPercent_sample : WithinTenPercent 2 (seedsFor 2 1) :=
  (seedsFor_withinTenPercent_iff [bytes "a", bytes "b"] (List.cons_ne_nil _ _) (by decide)).mpr
    (by decide) 1 (by decide)

/-- Of four suffixes the first one is chosen for a third of the seeds. -/
theorem seedsFor_four : 1431655764 ≤ seedsFor 4 0 ∧ ¬ WithinTenPercent 4 (seedsFor 4 0) := by
  have hodd := @odd_seeds_le 4 1 (by decide) (by decide)
  have hlater : ∑ l ∈ Ico 1 ((4 + 1) / 2), 2 * (2 ^ 31 / (2 * (2 * l + 1)) + 1) = 715827884 := by
    norm_num [sum_Ico_succ_top]
  rw [hlater, sum_range_one, Nat.mul_zero] at hodd
  have hlow : 1431655764 ≤ seedsFor 4 0 := by omega
  refine ⟨hlow, fun hwithin => ?_⟩
  have hcast : (1431655764 : ℚ) ≤ seedsFor 4 0 := by exact_mod_cast hlow
  have hupper := (abs_le.mp hwithin).2
  norm_num at hupper
  linarith

end SearchTools.Testbed
