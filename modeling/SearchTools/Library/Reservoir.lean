/-
# Choosing from a list in one pass

The entry at position `j` replaces the current choice when a draw is divisible
by `j`. The source of the draws is any function on a state. The last such entry is
the one chosen, and when all residues of the draws are equally likely, so are the
entries.
-/

import Mathlib.Data.Fintype.BigOperators
import Mathlib.Data.Nat.Factorial.BigOperators
import Mathlib.Data.Set.Card
import Mathlib.Logic.Function.Iterate

namespace SearchTools.Library

variable {α σ : Type*} (draw : σ → ℕ × σ)

/-- The pass over the list: `count` entries have been seen, `choice` is the
current choice and `state` the state of the source. -/
def reservoir : List α → ℕ → Option α → σ → Option α × σ
  | [], _, choice, state => (choice, state)
  | a :: rest, count, choice, state =>
      reservoir rest (count + 1)
        (if (draw state).1 % (count + 1) = 0 then some a else choice) (draw state).2

/-- The choice a pass starts from or some entry of the list survives it. -/
theorem reservoir_mem (l : List α) (count : ℕ) (a : α) (state : σ) :
    ∃ b ∈ a :: l, (reservoir draw l count (some a) state).1 = some b := by
  induction l generalizing count a state with
  | nil => exact ⟨a, List.mem_singleton_self a, rfl⟩
  | cons first rest ih =>
      by_cases hdraw : (draw state).1 % (count + 1) = 0
      · obtain ⟨b, hb, hpass⟩ := ih (count + 1) first (draw state).2
        refine ⟨b, List.mem_cons_of_mem _ hb, ?_⟩
        rw [reservoir, if_pos hdraw, hpass]
      · obtain ⟨b, hb, hpass⟩ := ih (count + 1) a (draw state).2
        refine ⟨b, ?_, by rw [reservoir, if_neg hdraw, hpass]⟩
        rcases List.mem_cons.mp hb with rfl | hrest
        · exact List.mem_cons_self
        · exact List.mem_cons_of_mem _ (List.mem_cons_of_mem _ hrest)

/-- The first draw is taken modulo one, so a pass over a non-empty list chooses
an entry of the list whatever was chosen before. -/
theorem reservoir_assigns {l : List α} (hl : l ≠ []) (state : σ) :
    ∃ a ∈ l, ∀ choice, (reservoir draw l 0 choice state).1 = some a := by
  match l with
  | [] => exact absurd rfl hl
  | first :: rest =>
      obtain ⟨a, ha, hpass⟩ := reservoir_mem draw rest 1 first (draw state).2
      refine ⟨a, ha, fun choice => ?_⟩
      rw [reservoir, if_pos (Nat.mod_one _), hpass]

/-! ## The last hit -/

/-- The source after `n` draws. -/
def afterDraws (n : ℕ) (state : σ) : σ := (fun state => (draw state).2)^[n] state

/-- The entry at position `j`, counted from 0, replaces the choice. -/
def Hits (state : σ) (j : ℕ) : Prop := (draw (afterDraws draw j state)).1 % (j + 1) = 0

instance (state : σ) (j : ℕ) : Decidable (Hits draw state j) :=
  inferInstanceAs (Decidable ((draw (afterDraws draw j state)).1 % (j + 1) = 0))

/-- Of `n` entries, the one at position `i` is the last to replace the choice. -/
structure LastHit (state : σ) (n i : ℕ) : Prop where
  lt : i < n
  hit : Hits draw state i
  last : ∀ j, i < j → j < n → ¬ Hits draw state j

variable {draw} {state : σ}

theorem afterDraws_succ (n : ℕ) (state : σ) :
    afterDraws draw (n + 1) state = (draw (afterDraws draw n state)).2 :=
  Function.iterate_succ_apply' _ n state

/-- The first entry always replaces the choice. -/
theorem hits_zero : Hits draw state 0 := Nat.mod_one _

theorem lastHit_succ_iff {n i : ℕ} :
    LastHit draw state (n + 1) i ↔
      if Hits draw state n then i = n else LastHit draw state n i := by
  by_cases hn : Hits draw state n
  · rw [if_pos hn]
    constructor
    · intro h
      apply Nat.le_antisymm (Nat.le_of_lt_succ h.lt)
      exact Nat.le_of_not_lt fun hlt => h.last n hlt (Nat.lt_succ_self n) hn
    · rintro rfl
      exact ⟨Nat.lt_succ_self i, hn, fun j hlt hle => absurd hlt (Nat.not_lt_of_le
        (Nat.le_of_lt_succ hle))⟩
  · rw [if_neg hn]
    constructor
    · intro h
      have hne : i ≠ n := fun heq => hn (heq ▸ h.hit)
      exact ⟨Nat.lt_of_le_of_ne (Nat.le_of_lt_succ h.lt) hne, h.hit,
        fun j hlt hj => h.last j hlt (Nat.lt_succ_of_lt hj)⟩
    · intro h
      refine ⟨Nat.lt_succ_of_lt h.lt, h.hit, fun j hlt hle => ?_⟩
      rcases Nat.lt_succ_iff_lt_or_eq.mp hle with hj | rfl
      · exact h.last j hlt hj
      · exact hn

/-- Some entry is the last hit. -/
theorem exists_lastHit {n : ℕ} (hn : 0 < n) : ∃ i, LastHit draw state n i := by
  induction n with
  | zero => exact absurd hn (Nat.lt_irrefl 0)
  | succ n ih =>
      simp only [lastHit_succ_iff]
      by_cases hhit : Hits draw state n
      · exact ⟨n, by rw [if_pos hhit]⟩
      · have hpos : 0 < n := by
          apply Nat.pos_of_ne_zero
          rintro rfl
          exact hhit hits_zero
        rcases ih hpos with ⟨i, hi⟩
        exact ⟨i, by rw [if_neg hhit]; exact hi⟩

theorem LastHit.unique {n i j : ℕ} (hi : LastHit draw state n i) (hj : LastHit draw state n j) :
    i = j := by
  rcases Nat.lt_trichotomy i j with hlt | heq | hlt
  · exact absurd hj.hit (hi.last j hlt hj.lt)
  · exact heq
  · exact absurd hi.hit (hj.last i hlt hi.lt)

/-- A pass over one more entry. -/
theorem reservoir_concat (l : List α) (a : α) (count : ℕ) (choice : Option α) (state : σ) :
    reservoir draw (l ++ [a]) count choice state =
      (if (draw (afterDraws draw l.length state)).1 % (count + l.length + 1) = 0 then some a
        else (reservoir draw l count choice state).1, afterDraws draw (l.length + 1) state) := by
  induction l generalizing count choice state with
  | nil => rfl
  | cons first rest ih =>
      have hcount : count + (rest.length + 1) + 1 = count + 1 + rest.length + 1 := by omega
      rw [List.cons_append, reservoir, ih, List.length_cons, hcount]
      rfl

/-- The pass chooses the last entry that replaces the choice. -/
theorem LastHit.reservoir_eq {l : List α} {i : ℕ} (h : LastHit draw state l.length i)
    (choice : Option α) : (reservoir draw l 0 choice state).1 = l[i]? := by
  induction l using List.reverseRecOn generalizing i with
  | nil => exact absurd h.lt (Nat.not_lt_zero i)
  | append_singleton l a ih =>
      rw [List.length_append, List.length_singleton, lastHit_succ_iff] at h
      rw [reservoir_concat, Nat.zero_add]
      by_cases hhit : Hits draw state l.length
      · rw [if_pos hhit] at h
        rw [if_pos (show _ = 0 from hhit), h, List.getElem?_concat_length]
      · rw [if_neg hhit] at h
        rw [if_neg (show ¬ _ = 0 from hhit), ih h, List.getElem?_append_left h.lt]

/-! ## Draws with equally likely residues -/

/-- A source that yields the listed draws. -/
def listed (draws : ℕ → ℕ) : ℕ × (ℕ → ℕ) := (draws 0, fun j => draws (j + 1))

theorem hits_listed {draws : ℕ → ℕ} {j : ℕ} : Hits listed draws j ↔ draws j % (j + 1) = 0 := by
  have hafter : afterDraws listed j draws = fun i => draws (i + j) := by
    induction j with
    | zero => rfl
    | succ j ih =>
        rw [afterDraws_succ, ih]
        funext i
        exact congrArg draws (by omega)
  rw [Hits, hafter]
  show draws (0 + j) % (j + 1) = 0 ↔ _
  rw [Nat.zero_add]

/-- Residues of `n` draws: that of the draw for position `j`, counted from 0, is taken
modulo `j + 1`. -/
abbrev Residues (n : ℕ) : Type := (j : Fin n) → Fin (j + 1)

/-- The residues as draws. -/
def Residues.draws {n : ℕ} (r : Residues n) (j : ℕ) : ℕ := if h : j < n then r ⟨j, h⟩ else 0

theorem card_residues (n : ℕ) : Fintype.card (Residues n) = n.factorial := by
  rw [Fintype.card_pi]
  simp only [Fintype.card_fin]
  rw [Fin.prod_univ_eq_prod_range fun j => j + 1, Finset.prod_range_add_one_eq_factorial]

theorem Residues.hits_iff {n : ℕ} {r : Residues n} {j : Fin n} :
    Hits listed r.draws j ↔ r j = 0 := by
  rw [hits_listed, draws, dif_pos j.isLt, Nat.mod_eq_of_lt (r j).isLt]
  exact Fin.val_eq_zero_iff

/-- How many residues at position `j` leave the last hit at `i`. -/
theorem prod_lastHit {n i : ℕ} (hi : i < n) :
    ∏ j ∈ Finset.range n, (if j < i then j + 1 else if j = i then 1 else j) =
      (n - 1).factorial := by
  induction n with
  | zero => exact absurd hi (Nat.not_lt_zero i)
  | succ n ih =>
      rw [Finset.prod_range_succ, Nat.add_sub_cancel]
      rcases Nat.lt_succ_iff_lt_or_eq.mp hi with hlt | rfl
      · rw [ih hlt, if_neg (Nat.not_lt_of_gt hlt), if_neg (Nat.ne_of_gt hlt), Nat.mul_comm]
        exact Nat.mul_factorial_pred (Nat.ne_of_gt (Nat.zero_lt_of_lt hlt))
      · rw [if_neg (Nat.lt_irrefl i), if_pos rfl, Nat.mul_one]
        rw [← Finset.prod_range_add_one_eq_factorial]
        apply Finset.prod_congr rfl
        intro j hj
        rw [if_pos (Finset.mem_range.mp hj)]

/-- Each of `n` positions is the last hit for `(n - 1)!` of the `n!` residues. -/
theorem ncard_lastHit {n i : ℕ} (hi : i < n) :
    {r : Residues n | LastHit listed r.draws n i}.ncard = (n - 1).factorial := by
  let allowed (j : Fin n) : Finset (Fin (j + 1)) :=
    if (j : ℕ) < i then Finset.univ else if (j : ℕ) = i then {0} else Finset.univ.erase 0
  have hset : {r : Residues n | LastHit listed r.draws n i} =
      ((Fintype.piFinset allowed : Finset (Residues n)) : Set (Residues n)) := by
    ext r
    rw [Finset.mem_coe, Fintype.mem_piFinset, Set.mem_ofPred_eq]
    constructor
    · intro h j
      rcases Nat.lt_trichotomy j i with hlt | heq | hgt
      · simp [allowed, hlt]
      · have hzero : r j = 0 := Residues.hits_iff.mp (heq ▸ h.hit)
        simp [allowed, heq, hzero]
      · have hzero : r j ≠ 0 := mt Residues.hits_iff.mpr (h.last j hgt j.isLt)
        simp [allowed, Nat.not_lt_of_gt hgt, Nat.ne_of_gt hgt, hzero]
    · intro h
      refine ⟨hi, ?_, fun j hlt hj => ?_⟩
      · have hmem := h ⟨i, hi⟩
        simp only [allowed, Nat.lt_irrefl, if_false, if_true, Finset.mem_singleton] at hmem
        exact (@Residues.hits_iff n r ⟨i, hi⟩).mpr hmem
      · have hmem := h ⟨j, hj⟩
        simp only [allowed, Nat.not_lt_of_gt hlt, Nat.ne_of_gt hlt, if_false, Finset.mem_erase,
          Finset.mem_univ, and_true] at hmem
        exact mt (@Residues.hits_iff n r ⟨j, hj⟩).mp hmem
  have hcard : ∀ j : Fin n, (allowed j).card =
      if (j : ℕ) < i then (j : ℕ) + 1 else if (j : ℕ) = i then 1 else (j : ℕ) := by
    intro j
    simp only [allowed]
    split
    · exact Finset.card_fin _
    · split
      · exact Finset.card_singleton _
      · rw [Finset.card_erase_of_mem (Finset.mem_univ _), Finset.card_fin]
        rfl
  rw [hset, Set.ncard_coe_finset, Fintype.card_piFinset]
  simp only [hcard]
  rw [Fin.prod_univ_eq_prod_range fun j => if j < i then j + 1 else if j = i then 1 else j]
  exact prod_lastHit hi

end SearchTools.Library
