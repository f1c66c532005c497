/-
# Tables

Three stores of items by their keys. A table with separate chaining is reduced to its
index: cell `p` carries `key p`, the cells below `fresh` have been allocated, and
`bucket h` lists the cells chained at slot `h`, newest first. What a cell stores besides
its key is left to the user of the index. The hash function is arbitrary, so the facts
hold whatever keys collide. A table without collisions is an array of slots, each null or
holding one item, into which items are placed at slots of their own. A finite map is
built from the list of its entries.
-/

import Mathlib.Data.Finmap
import Mathlib.Data.List.Nodup
import Mathlib.Data.Nat.Notation
import Mathlib.Logic.Function.Basic

namespace SearchTools.Library

universe u

section Chains

variable {κ : Type*} (hash : κ → ℕ)

/-- The index invariant: a chain holds exactly the allocated cells whose key
hashes to its slot, each once, and no two allocated cells share a key. -/
structure BucketIndex (key : ℕ → κ) (fresh : ℕ) (bucket : ℕ → List ℕ) : Prop where
  mem_bucket : ∀ h p, p ∈ bucket h ↔ p < fresh ∧ hash (key p) = h
  key_inj : ∀ p q, p < fresh → q < fresh → key p = key q → p = q
  nodup : ∀ h, (bucket h).Nodup

/-- Walk the chain of `k` and stop at the first cell carrying `k`. -/
def chainFind [DecidableEq κ] (key : ℕ → κ) (bucket : ℕ → List ℕ) (k : κ) : Option ℕ :=
  (bucket (hash k)).find? fun p => key p = k

namespace BucketIndex

variable {hash} {key : ℕ → κ} {fresh : ℕ} {bucket : ℕ → List ℕ}

/-- A table whose buckets are all null has no cells. -/
theorem empty : BucketIndex hash key 0 fun _ => [] where
  mem_bucket := by simp
  key_inj := by simp
  nodup := by simp

variable [DecidableEq κ]

/-- The walk finds a cell exactly when that cell is allocated and carries the
key: a collision never hides a cell and never answers for another key. -/
theorem chainFind_eq_some_iff (index : BucketIndex hash key fresh bucket) {k : κ} {p : ℕ} :
    chainFind hash key bucket k = some p ↔ p < fresh ∧ key p = k := by
  constructor
  · intro hfind
    have hkey : key p = k := by simpa using List.find?_some hfind
    have hmem := (index.mem_bucket _ p).mp (List.mem_of_find?_eq_some hfind)
    exact ⟨hmem.1, hkey⟩
  · rintro ⟨hp, rfl⟩
    have hmem : p ∈ bucket (hash (key p)) := (index.mem_bucket _ p).mpr ⟨hp, rfl⟩
    obtain ⟨q, hq⟩ := Option.isSome_iff_exists.mp
      (List.find?_isSome.mpr ⟨p, hmem, decide_eq_true rfl⟩ :
        (chainFind hash key bucket (key p)).isSome)
    have hkey : key q = key p := by simpa using List.find?_some hq
    have hlt := ((index.mem_bucket _ q).mp (List.mem_of_find?_eq_some hq)).1
    rw [chainFind, hq, index.key_inj q p hlt hp hkey]

/-- A failed walk certifies that no allocated cell carries the key. -/
theorem chainFind_eq_none_iff (index : BucketIndex hash key fresh bucket) {k : κ} :
    chainFind hash key bucket k = none ↔ ∀ p < fresh, key p ≠ k := by
  rw [Option.eq_none_iff_forall_ne_some]
  constructor
  · intro hnone p hp hkey
    exact hnone p (index.chainFind_eq_some_iff.mpr ⟨hp, hkey⟩)
  · intro habsent p hfind
    obtain ⟨hp, hkey⟩ := index.chainFind_eq_some_iff.mp hfind
    exact habsent p hp hkey

omit [DecidableEq κ] in
/-- Pushing a fresh cell to the front of the chain of an absent key keeps the
invariant. -/
theorem push (index : BucketIndex hash key fresh bucket) {k : κ}
    (habsent : ∀ p < fresh, key p ≠ k) :
    BucketIndex hash (Function.update key fresh k) (fresh + 1)
      (Function.update bucket (hash k) (fresh :: bucket (hash k))) where
  mem_bucket h p := by
    have hold := index.mem_bucket h p
    by_cases hp : p = fresh
    · subst hp
      have hnot : p ∉ bucket h := fun hmem => absurd (hold.mp hmem).1 (Nat.lt_irrefl p)
      by_cases hh : h = hash k
      · simp [hh]
      · simp [Function.update_of_ne hh, hnot, Ne.symm hh]
    · by_cases hh : h = hash k
      · subst hh
        simp only [Function.update_self, List.mem_cons, hp, false_or, hold,
          Function.update_of_ne hp]
        constructor <;> rintro ⟨hlt, heq⟩ <;> exact ⟨by omega, heq⟩
      · rw [Function.update_of_ne hh, Function.update_of_ne hp, hold]
        constructor <;> rintro ⟨hlt, heq⟩ <;> exact ⟨by omega, heq⟩
  key_inj p q hp hq heq := by
    by_cases hpf : p = fresh <;> by_cases hqf : q = fresh
    · rw [hpf, hqf]
    · subst hpf
      rw [Function.update_self, Function.update_of_ne hqf] at heq
      exact absurd heq.symm (habsent q (by omega))
    · subst hqf
      rw [Function.update_self, Function.update_of_ne hpf] at heq
      exact absurd heq (habsent p (by omega))
    · rw [Function.update_of_ne hpf, Function.update_of_ne hqf] at heq
      exact index.key_inj p q (by omega) (by omega) heq
  nodup h := by
    by_cases hh : h = hash k
    · subst hh
      rw [Function.update_self, List.nodup_cons]
      exact ⟨fun hmem => absurd ((index.mem_bucket _ _).mp hmem).1 (Nat.lt_irrefl _),
        index.nodup _⟩
    · rw [Function.update_of_ne hh]
      exact index.nodup h

end BucketIndex

end Chains

section Slots

variable {α : Type u} {slot : α → ℕ} {placed : List α} {sub : List (Option α)}

/-- Every placed item is at its slot, and nothing else is in the array. -/
def Holds (slot : α → ℕ) (placed : List α) (sub : List (Option α)) : Prop :=
  ∀ i q, sub[i]? = some (some q) ↔ q ∈ placed ∧ slot q = i

/-- An array of null slots holds nothing. -/
theorem holds_replicate (slot : α → ℕ) (size : ℕ) : Holds slot [] (List.replicate size none) := by
  intro i q
  rw [List.getElem?_replicate]
  constructor
  · intro h
    split at h
    · cases Option.some.inj h
    · cases h
  · rintro ⟨hmem, -⟩
    cases hmem

/-- A slot is taken when an item was placed there. -/
theorem Holds.isSome_iff (h : Holds slot placed sub) (i : ℕ) :
    (sub.getD i none).isSome ↔ i ∈ placed.map slot := by
  rw [List.getD_eq_getElem?_getD, List.mem_map]
  constructor
  · intro hsome
    cases hget : sub[i]? with
    | none =>
        rw [hget] at hsome
        cases hsome
    | some entry =>
        rw [hget, Option.getD_some] at hsome
        rcases Option.isSome_iff_exists.mp hsome with ⟨q, rfl⟩
        exact ⟨q, (h i q).mp hget⟩
  · rintro ⟨q, hq⟩
    rw [(h i q).mpr hq, Option.getD_some]
    rfl

/-- Placing an item at a free slot of the array. -/
theorem Holds.set (h : Holds slot placed sub) {p : α} (hlt : slot p < sub.length)
    (hfree : slot p ∉ placed.map slot) : Holds slot (placed ++ [p]) (sub.set (slot p) (some p)) := by
  intro i q
  rw [List.mem_append, List.mem_singleton]
  by_cases hi : slot p = i
  · subst hi
    rw [List.getElem?_set_self hlt, Option.some.injEq, Option.some.injEq]
    constructor
    · rintro rfl
      exact ⟨Or.inr rfl, rfl⟩
    · rintro ⟨hold | rfl, hslot⟩
      · exact absurd (List.mem_map.mpr ⟨q, hold, hslot⟩) hfree
      · rfl
  · rw [List.getElem?_set_ne hi, h i q]
    constructor
    · rintro ⟨hmem, hslot⟩
      exact ⟨Or.inl hmem, hslot⟩
    · rintro ⟨hold | rfl, hslot⟩
      · exact ⟨hold, hslot⟩
      · exact absurd hslot hi

end Slots

section Entries

variable {κ ν : Type*} [DecidableEq κ]

/-- The finite map with the listed entries. -/
def ofEntries (entries : List (κ × ν)) : Finmap fun _ : κ => ν :=
  entries.foldr (fun e m => m.insert e.1 e.2) ∅

theorem lookup_ofEntries_of_notMem {entries : List (κ × ν)} {k : κ}
    (hk : k ∉ entries.map Prod.fst) : (ofEntries entries).lookup k = none := by
  induction entries with
  | nil => rfl
  | cons e entries ih =>
      rw [List.map_cons, List.mem_cons, not_or] at hk
      rw [ofEntries, List.foldr_cons, Finmap.lookup_insert_of_ne _ hk.1]
      exact ih hk.2

/-- With distinct keys every listed entry is an entry of the map. -/
theorem lookup_ofEntries {entries : List (κ × ν)} (hnodup : (entries.map Prod.fst).Nodup)
    {e : κ × ν} (he : e ∈ entries) : (ofEntries entries).lookup e.1 = some e.2 := by
  induction entries with
  | nil => cases he
  | cons first entries ih =>
      rw [List.map_cons, List.nodup_cons] at hnodup
      rw [ofEntries, List.foldr_cons]
      rcases List.mem_cons.mp he with rfl | he
      · exact Finmap.lookup_insert _
      · have hne : e.1 ≠ first.1 := by
          intro heq
          exact hnodup.1 (heq ▸ List.mem_map_of_mem he)
        rw [Finmap.lookup_insert_of_ne _ hne]
        exact ih hnodup.2 he

end Entries

end SearchTools.Library
