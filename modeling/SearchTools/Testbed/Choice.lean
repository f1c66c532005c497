/-
# The choice of the next word

The suffix loop of `generate` chooses the position of the last draw that its number
divides. With ideal draws every position is equally likely.
-/

import SearchTools.Testbed.Generate

namespace SearchTools.Testbed

open SearchTools.Library

/-- The suffix loop with any source of draws in the place of `my_rand_r`. -/
def suffixLoopWith {σ : Type} (draw : σ → ℕ × σ) (suf : List Word) (w : Option Word) (state : σ) :
    Option Word × σ := reservoir draw suf 0 w state

theorem suffixLoop_eq : suffixLoop = suffixLoopWith myRandR := rfl

/-- On every list of `n` suffixes, and whatever `w` was before, the loop ends with `w`
equal to the suffix at position `i`, counted from 0. -/
def EndsAt {σ : Type} (draw : σ → ℕ × σ) (state : σ) (n i : ℕ) : Prop :=
  ∀ (suf : List Word) (w : Option Word), suf.length = n →
    (suffixLoopWith draw suf w state).1 = suf[i]?

/-- Lists of different words tell the positions apart. -/
theorem endsAt_iff {σ : Type} {draw : σ → ℕ × σ} {state : σ} {n i : ℕ} (hi : i < n) :
    EndsAt draw state n i ↔ LastHit draw state n i := by
  constructor
  · intro h
    let suf : List Word := (List.range n).map fun j => List.replicate j 97
    have hlen : suf.length = n := by rw [List.length_map, List.length_range]
    rcases exists_lastHit (Nat.zero_lt_of_lt hi) with ⟨j, hj⟩
    have heq : suf[i]? = suf[j]? := by
      rw [← h suf none hlen]
      exact LastHit.reservoir_eq (by rw [hlen]; exact hj) none
    have hwords : ∀ k < n, suf[k]? = some (List.replicate k 97) := by
      intro k hk
      rw [List.getElem?_map, List.getElem?_range hk, Option.map_some]
    rw [hwords i hi, hwords j hj.lt] at heq
    have hsame : i = j := by simpa using congrArg List.length (Option.some.inj heq)
    rw [hsame]
    exact hj
  · rintro h suf w rfl
    exact h.reservoir_eq w

/-! ## Ideal draws -/

/-- The suffix loop on a list of draws. -/
def idealLoop (suf : List Word) (w : Option Word) (draws : ℕ → ℕ) : Option Word :=
  (suffixLoopWith listed suf w draws).1

/-- The positions of a word are as many as its occurrences. -/
theorem card_positions (suf : List Word) (word : Word) :
    ((Finset.range suf.length).filter fun i => suf[i]? = some word).card = suf.count word := by
  induction suf using List.reverseRecOn with
  | nil => rfl
  | append_singleton suf last ih =>
      have hinit : ((Finset.range suf.length).filter fun i => (suf ++ [last])[i]? = some word) =
          (Finset.range suf.length).filter fun i => suf[i]? = some word := by
        apply Finset.filter_congr
        intro i hi
        rw [List.getElem?_append_left (Finset.mem_range.mp hi)]
      rw [List.length_append, List.length_singleton, Finset.range_add_one, Finset.filter_insert,
        List.getElem?_concat_length, hinit, List.count_append, List.count_singleton]
      by_cases hlast : last = word
      · rw [if_pos (congrArg some hlast), Finset.card_insert_of_notMem (by simp), ih]
        simp [hlast]
      · rw [if_neg (fun h => hlast (Option.some.inj h)), ih]
        simp [hlast]

/-- A word is chosen when its position is. -/
theorem idealLoop_eq_some_iff {suf : List Word} (hne : suf ≠ []) {w : Option Word} {word : Word}
    {draws : ℕ → ℕ} :
    idealLoop suf w draws = some word ↔
      ∃ i, suf[i]? = some word ∧ LastHit listed draws suf.length i := by
  rcases exists_lastHit (List.length_pos_iff.mpr hne) with ⟨j, hj⟩
  have hloop : idealLoop suf w draws = suf[j]? := hj.reservoir_eq w
  rw [hloop]
  constructor
  · exact fun h => ⟨j, h, hj⟩
  · rintro ⟨i, hword, hi⟩
    rw [hj.unique hi]
    exact hword

/-- A word with `c` occurrences is chosen for `c` times as many residues as one
position. -/
theorem ncard_idealLoop {suf : List Word} (hne : suf ≠ []) (w : Option Word) (word : Word) :
    {r : Residues suf.length | idealLoop suf w r.draws = some word}.ncard =
      suf.count word * (suf.length - 1).factorial := by
  classical
  let positions := (Finset.range suf.length).filter fun i => suf[i]? = some word
  let last (i : ℕ) : Finset (Residues suf.length) :=
    Finset.univ.filter fun r => LastHit listed r.draws suf.length i
  have hset : {r : Residues suf.length | idealLoop suf w r.draws = some word} =
      ((positions.biUnion last : Finset (Residues suf.length)) : Set (Residues suf.length)) := by
    ext r
    simp only [Set.mem_ofPred_eq, idealLoop_eq_some_iff hne, Finset.mem_coe, Finset.mem_biUnion,
      positions, last, Finset.mem_filter, Finset.mem_range, Finset.mem_univ, true_and]
    constructor
    · rintro ⟨i, hword, hi⟩
      exact ⟨i, ⟨hi.lt, hword⟩, hi⟩
    · rintro ⟨i, ⟨-, hword⟩, hi⟩
      exact ⟨i, hword, hi⟩
  have hdisjoint : (positions : Set ℕ).PairwiseDisjoint last := by
    intro i _ j _ hij
    apply Finset.disjoint_left.mpr
    intro r hi hj
    exact hij ((Finset.mem_filter.mp hi).2.unique (Finset.mem_filter.mp hj).2)
  have hcard : ∀ i ∈ positions, (last i).card = (suf.length - 1).factorial := by
    intro i hi
    have hlt : i < suf.length := Finset.mem_range.mp (Finset.mem_filter.mp hi).1
    rw [← ncard_lastHit hlt, ← Set.ncard_coe_finset]
    congr 1
    ext r
    simp [last]
  rw [hset, Set.ncard_coe_finset, Finset.card_biUnion hdisjoint, Finset.sum_const_nat hcard,
    card_positions]

/-- For ideal draws the loop is fair. The draws count through their residues only;
`w` is assigned; each position is chosen for `(n - 1)!` of the `n!` residues, and a
word that occurs `c` times with probability `c / n`. -/
theorem idealLoop_uniform (suf : List Word) (hne : suf ≠ []) (w : Option Word) :
    Fintype.card (Residues suf.length) = suf.length.factorial ∧
      (∀ draws (r : Residues suf.length), (∀ j, draws j.val % (j + 1) = (r j : ℕ)) →
        idealLoop suf w draws = idealLoop suf w r.draws) ∧
      (∀ draws, ∃ word ∈ suf, idealLoop suf w draws = some word) ∧
      (∀ i < suf.length, {r : Residues suf.length | EndsAt listed r.draws suf.length i}.ncard =
        (suf.length - 1).factorial) ∧
      ∀ word, ({r : Residues suf.length | idealLoop suf w r.draws = some word}.ncard : ℚ) /
        Fintype.card (Residues suf.length) = suf.count word / suf.length := by
  have hpos : 0 < suf.length := List.length_pos_iff.mpr hne
  refine ⟨card_residues _, fun draws r hr => ?_, fun draws => ?_, fun i hi => ?_, fun word => ?_⟩
  · rcases @exists_lastHit _ listed r.draws _ hpos with ⟨i, hi⟩
    have hhits : ∀ j < suf.length, (Hits listed draws j ↔ Hits listed r.draws j) := by
      intro j hj
      rw [hits_listed, (@Residues.hits_iff _ r ⟨j, hj⟩), hr ⟨j, hj⟩]
      exact Fin.val_eq_zero_iff
    have hdraws : LastHit listed draws suf.length i :=
      ⟨hi.lt, (hhits i hi.lt).mpr hi.hit, fun j hlt hj => mt (hhits j hj).mp (hi.last j hlt hj)⟩
    exact (hdraws.reservoir_eq w).trans (hi.reservoir_eq w).symm
  · rcases reservoir_assigns listed hne draws with ⟨word, hword, hloop⟩
    exact ⟨word, hword, hloop w⟩
  · simp only [endsAt_iff hi]
    exact ncard_lastHit hi
  · rw [ncard_idealLoop hne, card_residues, ← Nat.mul_factorial_pred (Nat.ne_of_gt hpos)]
    have hfactorial : ((suf.length - 1).factorial : ℚ) ≠ 0 :=
      Nat.cast_ne_zero.mpr (Nat.factorial_ne_zero _)
    rw [Nat.cast_mul, Nat.cast_mul, mul_div_mul_right _ _ hfactorial]

/-- Two suffixes of which one is `"a"`. -/
theorem idealLoop_uniform_two :
    ({r : Residues 2 | idealLoop [bytes "a", bytes "b"] none r.draws = some (bytes "a")}.ncard : ℚ)
      / Fintype.card (Residues 2) = 1 / 2 := by
  have huniform := (idealLoop_uniform [bytes "a", bytes "b"] (List.cons_ne_nil _ _) none).2.2.2.2
    (bytes "a")
  have hcount : [bytes "a", bytes "b"].count (bytes "a") = 1 := by decide
  rw [hcount] at huniform
  simpa using huniform

end SearchTools.Testbed
