/-
# The ideal hash tables

`ideal_hashing` gives every bucket of the Markov table a second-level table
without collisions, and `lookup_ideal` reads it back with two hashes and no
comparison. The state pointers of both tables are the same.
-/

import SearchTools.Library.Memory
import SearchTools.Library.Tables
import SearchTools.Testbed.Markov

namespace SearchTools.Testbed

open SearchTools.Library

structure Ideal where
  sub : List (Option StatePtr)
  size : ℕ
  hashNum : ℕ
  deriving DecidableEq, Repr

/-- `IdealState`: the ideal table of each bucket, or null. -/
abbrev IdealState := ℕ → Option Ideal

section Model

variable (t : TextState)

/-- One attempt of `ideal_hashing_`: store every state at its slot, and wipe
the slots at the first collision. The flag is `col`. -/
def fillSub (size mult : ℕ) :
    List StatePtr → List (Option StatePtr) → List (Option StatePtr) × Bool
  | [], sub => (sub, false)
  | p :: rest, sub =>
      let h := hash_ (t.heap p).pref size mult
      if (sub.getD h none).isSome then (List.replicate size none, true)
      else fillSub size mult rest (sub.set h (some p))

/-- The loop of `ideal_hashing_` over the `left` multipliers from `mult` on;
`col` is the outcome of the attempt before. -/
def searchMult (chain : List StatePtr) : ℕ → ℕ → Bool → Ideal → Ideal × Bool
  | 0, _, col, r => (r, col)
  | left + 1, mult, _, r =>
      let tried := fillSub t r.size mult chain r.sub
      if tried.2 then
        searchMult chain left (mult + 1) true { r with sub := tried.1, hashNum := mult }
      else ({ r with sub := tried.1, hashNum := mult }, false)

/-- `ideal_hashing_`: multipliers 1 to 9999; `none` is the `exit(1)` path. -/
def idealHashing_ (chain : List StatePtr) : Option Ideal :=
  let size := chain.length * 10
  let found := searchMult t chain 9999 1 false ⟨List.replicate size none, size, 0⟩
  if found.2 then none else some found.1

/-- The loop of `ideal_hashing` over the buckets below the given one. -/
def idealHashingBelow : ℕ → Option IdealState
  | 0 => some fun _ => none
  | i + 1 => do
      let ideal ← idealHashingBelow i
      match t.statetab i with
      | [] => some (Function.update ideal i none)
      | chain => do
          let r ← idealHashing_ t chain
          some (Function.update ideal i (some r))

/-- `ideal_hashing`; `none` when some bucket takes the `exit(1)` path. -/
def idealHashing : Option IdealState := idealHashingBelow t nhash

end Model

/-- `lookup_ideal`, with the reads of `ideal[h1]` and `sub[h2]` that can fault. -/
def lookupIdeal (pref : Prefix) (ideal : IdealState) : Except Fault (Option StatePtr) :=
  match ideal (hash pref) with
  | none => .error .nullPointer
  | some i =>
      match i.sub[hash_ pref i.size i.hashNum]? with
      | none => .error .outOfBounds
      | some sp => .ok sp

variable {t : TextState}

/-- The slot of a state in a table of the given size. -/
def slot (t : TextState) (size mult : ℕ) (p : StatePtr) : ℕ := hash_ (t.heap p).pref size mult

theorem slot_lt {size : ℕ} (hsize : 0 < size) (mult : ℕ) (p : StatePtr) :
    slot t size mult p < size := Nat.mod_lt _ hsize

/-! ## One attempt -/

/-- An attempt on an array that holds some states: it places the rest of the
chain unless two states share a slot, and then wipes the array. -/
theorem fillSub_cases {size mult : ℕ} (hsize : 0 < size) (rest : List StatePtr)
    {placed : List StatePtr} {sub : List (Option StatePtr)} (hlen : sub.length = size)
    (hholds : Holds (slot t size mult) placed sub)
    (hplaced : (placed.map (slot t size mult)).Nodup) :
    (((placed ++ rest).map (slot t size mult)).Nodup ∧ ∃ sub', sub'.length = size ∧
      Holds (slot t size mult) (placed ++ rest) sub' ∧
      fillSub t size mult rest sub = (sub', false)) ∨
    (¬ ((placed ++ rest).map (slot t size mult)).Nodup ∧
      fillSub t size mult rest sub = (List.replicate size none, true)) := by
  induction rest generalizing placed sub with
  | nil =>
      rw [List.append_nil]
      exact Or.inl ⟨hplaced, sub, hlen, hholds, rfl⟩
  | cons p rest ih =>
      have hfill : fillSub t size mult (p :: rest) sub =
          if (sub.getD (slot t size mult p) none).isSome then (List.replicate size none, true)
          else fillSub t size mult rest (sub.set (slot t size mult p) (some p)) := rfl
      have hassoc : placed ++ p :: rest = (placed ++ [p]) ++ rest := by simp
      rw [hfill]
      by_cases htaken : slot t size mult p ∈ placed.map (slot t size mult)
      · right
        rw [if_pos ((hholds.isSome_iff _).mpr htaken)]
        refine ⟨fun hnodup => ?_, rfl⟩
        rw [List.map_append, List.nodup_append] at hnodup
        exact hnodup.2.2 _ htaken _ (List.mem_map_of_mem List.mem_cons_self) rfl
      · rw [if_neg fun hsome => htaken ((hholds.isSome_iff _).mp hsome), hassoc]
        have hlt : slot t size mult p < sub.length := by
          rw [hlen]
          exact slot_lt hsize mult p
        refine ih ((List.length_set).trans hlen) (hholds.set hlt htaken) ?_
        rw [List.map_append, List.nodup_append]
        refine ⟨hplaced, List.nodup_singleton _, ?_⟩
        rintro i hi _ hj rfl
        rw [List.map_singleton, List.mem_singleton] at hj
        exact htaken (hj ▸ hi)

/-! ## The search -/

/-- The search from a clean array: it stops at the first multiplier under which no
two states share a slot, with the array of that attempt. Nothing is left of the
attempts before. -/
theorem searchMult_cases {size : ℕ} (hsize : 0 < size) (chain : List StatePtr) {left : ℕ}
    (mult hashNum : ℕ) {col : Bool} (hcol : left = 0 → col = true) :
    (∃ m sub, mult ≤ m ∧ m < mult + left ∧ (chain.map (slot t size m)).Nodup ∧
      (∀ m', mult ≤ m' → m' < m → ¬ (chain.map (slot t size m')).Nodup) ∧
      sub.length = size ∧ Holds (slot t size m) chain sub ∧
      searchMult t chain left mult col ⟨List.replicate size none, size, hashNum⟩ =
        (⟨sub, size, m⟩, false)) ∨
    ((∀ m, mult ≤ m → m < mult + left → ¬ (chain.map (slot t size m)).Nodup) ∧
      (searchMult t chain left mult col ⟨List.replicate size none, size, hashNum⟩).2 = true) := by
  induction left generalizing mult hashNum col with
  | zero =>
      right
      refine ⟨fun m hle hlt => absurd hlt (Nat.not_lt.mpr hle), ?_⟩
      exact hcol rfl
  | succ left ih =>
      rw [searchMult]
      rcases fillSub_cases hsize chain List.length_replicate
        (holds_replicate (slot t size mult) size) List.nodup_nil with
          ⟨hnodup, sub, hlen, hholds, hfill⟩ | ⟨hnodup, hfill⟩
      · left
        refine ⟨mult, sub, Nat.le_refl _, Nat.lt_add_of_pos_right (Nat.succ_pos left), hnodup,
          fun m' hle hlt => absurd hle (Nat.not_le.mpr hlt), hlen, hholds, ?_⟩
        rw [hfill]
        rfl
      · rw [List.nil_append] at hnodup
        have hfirst : ∀ m, mult ≤ m → ¬ mult + 1 ≤ m → ¬ (chain.map (slot t size m)).Nodup := by
          intro m hle hlt
          obtain rfl : mult = m := Nat.le_antisymm hle (Nat.le_of_lt_succ (Nat.not_le.mp hlt))
          exact hnodup
        have hend : mult + (left + 1) = mult + 1 + left := by rw [Nat.add_assoc, Nat.add_comm left]
        rw [hfill, hend]
        rcases @ih (mult + 1) mult true (fun _ => rfl) with
          ⟨m, sub, hle, hlt, hm, hleast, hsub⟩ | ⟨hnone, hexit⟩
        · left
          refine ⟨m, sub, Nat.le_of_succ_le hle, hlt, hm, fun m' hle' hlt' => ?_, hsub⟩
          by_cases hnext : mult + 1 ≤ m'
          · exact hleast m' hnext hlt'
          · exact hfirst m' hle' hnext
        · right
          refine ⟨fun m hle' hlt' => ?_, hexit⟩
          by_cases hnext : mult + 1 ≤ m
          · exact hnone m hnext hlt'
          · exact hfirst m hle' hnext

/-- `ideal_hashing_` returns the table of the least multiplier from 1 to 9999 under
which no two states of the chain share a slot, or none when there is none. -/
theorem idealHashing_cases (t : TextState) {chain : List StatePtr} (hne : chain ≠ []) :
    (∃ m sub, 1 ≤ m ∧ m ≤ 9999 ∧ (chain.map (slot t (chain.length * 10) m)).Nodup ∧
      (∀ m', 1 ≤ m' → m' < m → ¬ (chain.map (slot t (chain.length * 10) m')).Nodup) ∧
      sub.length = chain.length * 10 ∧ Holds (slot t (chain.length * 10) m) chain sub ∧
      idealHashing_ t chain = some ⟨sub, chain.length * 10, m⟩) ∨
    ((∀ m, 1 ≤ m → m ≤ 9999 → ¬ (chain.map (slot t (chain.length * 10) m)).Nodup) ∧
      idealHashing_ t chain = none) := by
  have hpos : 0 < chain.length * 10 :=
    Nat.mul_pos (List.length_pos_iff.mpr hne) (Nat.succ_pos 9)
  rw [idealHashing_]
  rcases @searchMult_cases t _ hpos chain 9999 1 0 false (by simp) with
    ⟨m, sub, hle, hlt, hnodup, hleast, hlen, hholds, hsearch⟩ | ⟨hnone, hexit⟩
  · left
    refine ⟨m, sub, hle, Nat.le_of_lt_succ hlt, hnodup, hleast, hlen, hholds, ?_⟩
    simp only [hsearch, Bool.false_eq_true, if_false]
  · right
    refine ⟨fun m hle hge => hnone m hle (Nat.lt_succ_of_le hge), ?_⟩
    simp only [hexit, if_true]

/-! ## What a completed search leaves -/

/-- A table that `ideal_hashing_` returns holds every state of its chain at the
slot that the table's own size and multiplier assign to it. -/
theorem slot_of_idealHashing_ {chain : List StatePtr} {r : Ideal}
    (hr : idealHashing_ t chain = some r) (p : StatePtr) (hp : p ∈ chain) :
    r.sub[hash_ (t.heap p).pref r.size r.hashNum]? = some (some p) := by
  rcases idealHashing_cases t (List.ne_nil_of_mem hp) with
    ⟨m, sub, -, -, -, -, -, hholds, hsome⟩ | ⟨-, hnone⟩
  · obtain rfl := Option.some.inj (hsome.symm.trans hr)
    exact (hholds _ p).mpr ⟨hp, rfl⟩
  · cases hnone.symm.trans hr

theorem idealHashingBelow_spec {n : ℕ} {ideal : IdealState}
    (hideal : idealHashingBelow t n = some ideal) {i : ℕ} (hi : i < n)
    (hchain : t.statetab i ≠ []) :
    ∃ r, ideal i = some r ∧ idealHashing_ t (t.statetab i) = some r := by
  induction n generalizing ideal with
  | zero => exact absurd hi (Nat.not_lt_zero i)
  | succ n ih =>
      simp only [idealHashingBelow, Option.bind_eq_bind, Option.bind_eq_some_iff] at hideal
      obtain ⟨before, hbefore, hstep⟩ := hideal
      by_cases hin : i = n
      · subst hin
        split at hstep
        · contradiction
        · simp only [Option.bind_eq_some_iff, Option.some.injEq] at hstep
          obtain ⟨r, hr, rfl⟩ := hstep
          exact ⟨r, by simp, hr⟩
      · obtain ⟨r, hold, hr⟩ := ih hbefore (by omega)
        refine ⟨r, ?_, hr⟩
        split at hstep
        · obtain rfl := Option.some.inj hstep
          rw [Function.update_of_ne hin, hold]
        · simp only [Option.bind_eq_some_iff, Option.some.injEq] at hstep
          obtain ⟨_, _, rfl⟩ := hstep
          rw [Function.update_of_ne hin, hold]

/-- The loop over the buckets completes when every non-empty chain has its
table. -/
theorem idealHashingBelow_isSome {n : ℕ}
    (hall : ∀ i < n, t.statetab i ≠ [] → (idealHashing_ t (t.statetab i)).isSome) :
    (idealHashingBelow t n).isSome := by
  induction n with
  | zero => rfl
  | succ n ih =>
      obtain ⟨before, hbefore⟩ := Option.isSome_iff_exists.mp
        (ih fun i hi => hall i (Nat.lt_succ_of_lt hi))
      have hlast := hall n (Nat.lt_succ_self n)
      simp only [idealHashingBelow, hbefore, Option.bind_eq_bind, Option.bind_some]
      split
      · rfl
      · next hchain =>
          obtain ⟨r, hr⟩ := Option.isSome_iff_exists.mp (hlast hchain)
          simp [hr]

/-- A chain of one state never collides. -/
theorem isSome_idealHashing_singleton (t : TextState) (p : StatePtr) :
    (idealHashing_ t [p]).isSome := by
  rcases idealHashing_cases t (List.cons_ne_nil p []) with
    ⟨m, sub, -, -, -, -, -, -, hsome⟩ | ⟨hnever, -⟩
  · rw [hsome]
    rfl
  · exact absurd (List.nodup_singleton _) (hnever 1 (Nat.le_refl 1) (by decide))

/-- A table whose prefixes hash to different buckets gets all its ideal tables. -/
theorem idealHashing_isSome_of_hash_inj (hwf : t.Wf)
    (hinj : ∀ p < t.brk, ∀ q < t.brk,
      hash (t.heap p).pref = hash (t.heap q).pref → p = q) :
    (idealHashing t).isSome := by
  apply idealHashingBelow_isSome
  intro i _ hne
  match hchain : t.statetab i with
  | [] => exact absurd hchain hne
  | [p] => exact isSome_idealHashing_singleton t p
  | p :: q :: rest =>
      have hp := (hwf.mem_bucket i p).mp (by simp [hchain])
      have hq := (hwf.mem_bucket i q).mp (by simp [hchain])
      have hnodup := hwf.nodup i
      rw [hchain, hinj p hp.1 q hq.1 (hp.2.trans hq.2.symm)] at hnodup
      simp at hnodup

/-- The ideal lookup of a stored prefix returns the state of the chained
lookup: the bucket has a table, the slot exists and holds that very state. -/
theorem lookupIdeal_of_search (hwf : t.Wf) {ideal : IdealState}
    (hideal : idealHashing t = some ideal) {pref : Prefix} {sp : StatePtr}
    (hfound : t.search pref = some sp) :
    lookupIdeal pref ideal = .ok (some sp) := by
  have hmem := TextState.mem_statetab_of_search hwf hfound
  obtain ⟨r, hbucket, hr⟩ := idealHashingBelow_spec hideal (hash_lt pref)
    (List.ne_nil_of_mem hmem)
  have hslot := slot_of_idealHashing_ hr sp hmem
  rw [((TextState.search_eq_some_iff hwf).mp hfound).2] at hslot
  simp [lookupIdeal, hbucket, hslot]

end SearchTools.Testbed
