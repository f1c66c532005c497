/-
# The least perfect multiplier

What `ideal_hashing_` searches for: the least multiplier for which no two states
of a chain share a slot. It leaves the states of the chain at their slots and
nothing else, or takes the `exit(1)` path when there is no such multiplier.
-/

import SearchTools.Library.CString
import SearchTools.Testbed.IdealHashing

namespace SearchTools.Testbed

open SearchTools.Library

variable {t : TextState} {chain : List StatePtr}

/-- `hash_` with the size of the table is injective on the prefixes of the chain. -/
def Separates (t : TextState) (chain : List StatePtr) (mult : ℕ) : Prop :=
  ∀ p ∈ chain, ∀ q ∈ chain,
    hash_ (t.heap p).pref (10 * chain.length) mult = hash_ (t.heap q).pref (10 * chain.length) mult →
      (t.heap p).pref = (t.heap q).pref

/-- The states of the chain have pairwise different prefixes. -/
def Distinct (t : TextState) (chain : List StatePtr) : Prop :=
  (chain.map fun p => (t.heap p).pref).Nodup

/-- The table of a chain for the least multiplier that separates it. -/
structure IsLeastPerfect (t : TextState) (chain : List StatePtr) (r : Ideal) : Prop where
  size : r.size = 10 * chain.length
  range : 1 ≤ r.hashNum ∧ r.hashNum ≤ 9999
  separates : Separates t chain r.hashNum
  least : ∀ mult, 1 ≤ mult → mult < r.hashNum → ¬ Separates t chain mult
  length : r.sub.length = r.size
  slots : ∀ i p, r.sub[i]? = some (some p) ↔
    p ∈ chain ∧ hash_ (t.heap p).pref r.size r.hashNum = i

theorem separates_iff (hdistinct : Distinct t chain) {mult : ℕ} :
    Separates t chain mult ↔ (chain.map (slot t (chain.length * 10) mult)).Nodup := by
  have hinj := List.inj_on_of_nodup_map hdistinct
  rw [List.nodup_map_iff_inj_on (List.Nodup.of_map _ hdistinct), Nat.mul_comm]
  constructor
  · intro h p hp q hq heq
    exact hinj hp hq (h p hp q hq heq)
  · intro h p hp q hq heq
    exact congrArg (fun p => (t.heap p).pref) (h p hp q hq heq)

/-- On a chain with pairwise different prefixes `ideal_hashing_` either returns the
table of the least multiplier from 1 to 9999 that separates the chain, or takes
the `exit(1)` path, and it takes that path exactly when there is none. -/
theorem idealHashing_least (t : TextState) (chain : List StatePtr) (hne : chain ≠ [])
    (hdistinct : Distinct t chain) :
    (∀ r, idealHashing_ t chain = some r → IsLeastPerfect t chain r) ∧
      (idealHashing_ t chain = none ↔
        ∀ mult, 1 ≤ mult → mult ≤ 9999 → ¬ Separates t chain mult) := by
  have hcases := idealHashing_cases t hne
  simp only [← separates_iff hdistinct] at hcases
  rcases hcases with ⟨m, sub, hle, hge, hsep, hleast, hlen, hholds, hsome⟩ | ⟨hnever, hnone⟩
  · rw [hsome]
    constructor
    · intro r hr
      obtain rfl := Option.some.inj hr
      exact ⟨Nat.mul_comm _ _, ⟨hle, hge⟩, hsep, hleast, hlen, hholds⟩
    · constructor
      · intro h
        cases h
      · intro h
        exact absurd hsep (h m hle hge)
  · rw [hnone]
    constructor
    · intro r hr
      cases hr
    · exact iff_of_true rfl hnever

/-- Two states whose prefixes have the same letters. -/
def swappedPair : TextState where
  heap p := if p = 0 then ⟨(bytes "a", bytes "b"), []⟩ else ⟨(bytes "b", bytes "a"), []⟩
  brk := 2
  statetab _ := []

/-- The multiplier 1 adds up the letters and does not tell the states apart. -/
theorem idealHashing_least_swapped :
    ∃ r, idealHashing_ swappedPair [0, 1] = some r ∧ r.hashNum = 2 ∧
      IsLeastPerfect swappedPair [0, 1] r := by
  have hdistinct : Distinct swappedPair [0, 1] := by
    unfold Distinct
    decide
  exact ⟨_, rfl, rfl, (idealHashing_least swappedPair [0, 1] (by decide) hdistinct).1 _ rfl⟩

/-! ## Whole texts -/

/-- The states of a bucket have pairwise different prefixes. -/
theorem TextState.Wf.distinct (hwf : t.Wf) (i : ℕ) : Distinct t (t.statetab i) := by
  rw [Distinct, List.nodup_map_iff_inj_on (hwf.nodup i)]
  intro p hp q hq heq
  exact hwf.key_inj p q ((hwf.mem_bucket i p).mp hp).1 ((hwf.mem_bucket i q).mp hq).1 heq

/-- `ideal_hashing` over a loaded text completes exactly when some multiplier from
1 to 9999 separates every chain, and then every bucket has its perfect table.
Otherwise it takes the `exit(1)` path. -/
theorem idealHashing_initFile (words : List Word) :
    ((idealHashing (initFile .empty words)).isSome ↔
      ∀ i < nhash, (initFile .empty words).statetab i ≠ [] →
        ∃ mult, 1 ≤ mult ∧ mult ≤ 9999 ∧
          Separates (initFile .empty words) ((initFile .empty words).statetab i) mult) ∧
    ∀ ideal, idealHashing (initFile .empty words) = some ideal →
      ∀ i < nhash, (initFile .empty words).statetab i ≠ [] →
        ∃ r, ideal i = some r ∧
          IsLeastPerfect (initFile .empty words) ((initFile .empty words).statetab i) r := by
  have hleast : ∀ i, (initFile .empty words).statetab i ≠ [] → _ := fun i hne =>
    idealHashing_least (initFile .empty words) _ hne ((wf_initFile words).distinct i)
  have hperfect : ∀ ideal, idealHashing (initFile .empty words) = some ideal →
      ∀ i < nhash, (initFile .empty words).statetab i ≠ [] →
        ∃ r, ideal i = some r ∧
          IsLeastPerfect (initFile .empty words) ((initFile .empty words).statetab i) r := by
    intro ideal hideal i hi hne
    rcases idealHashingBelow_spec hideal hi hne with ⟨r, hr, hbucket⟩
    exact ⟨r, hr, (hleast i hne).1 r hbucket⟩
  refine ⟨⟨fun hsome i hi hne => ?_, fun hall => ?_⟩, hperfect⟩
  · rcases Option.isSome_iff_exists.mp hsome with ⟨ideal, hideal⟩
    rcases hperfect ideal hideal i hi hne with ⟨r, -, hr⟩
    exact ⟨r.hashNum, hr.range.1, hr.range.2, hr.separates⟩
  · apply idealHashingBelow_isSome
    intro i hi hne
    rcases hall i hi hne with ⟨mult, hle, hge, hsep⟩
    rw [Option.isSome_iff_ne_none]
    exact fun hnone => (hleast i hne).2.mp hnone mult hle hge hsep

/-! ## Prefixes that no multiplier separates -/

/-- The bytes that both hash functions read: each word with a 1 after it. -/
def stream (s : Prefix) : Bytes := s.1 ++ [1] ++ (s.2 ++ [1])

theorem hash_eq_stream (s : Prefix) (size mult : ℕ) :
    hash_ s size mult = (stream s).foldl (fun h c => hashStep_ mult h c.toNat) 0 % size := by
  simp only [hash_, hashWord_, stream, List.foldl_append]
  rfl

/-- Different prefixes with the same bytes keep their chain from being separated. -/
theorem not_separates_of_stream_eq {p q : StatePtr} (hp : p ∈ chain) (hq : q ∈ chain)
    (hne : (t.heap p).pref ≠ (t.heap q).pref)
    (hstream : stream (t.heap p).pref = stream (t.heap q).pref) (mult : ℕ) :
    ¬ Separates t chain mult := by
  intro hsep
  apply hne
  apply hsep p hp q hq
  rw [hash_eq_stream, hash_eq_stream, hstream]

/-- Words that `fscanf` can yield with the format of `build_markov`. -/
def Readable (w : Word) : Prop :=
  w ≠ [] ∧ (∀ b ∈ w, isspace b = false ∧ b ≠ 0) ∧ w.length ≤ 99

/-- Four words, two of them with a byte 1 inside. -/
def ambiguousText : List Word := [[97, 1, 98], [99], [97], [98, 1, 99]]

/-- The second and the fourth prefix of the text have the same bytes, so
`ideal_hashing` gives up on it. -/
theorem idealHashing_ambiguousText :
    (∀ w ∈ ambiguousText, Readable w) ∧ idealHashing (initFile .empty ambiguousText) = none ∧
      ∃ i < nhash, ∀ mult,
        ¬ Separates (initFile .empty ambiguousText) ((initFile .empty ambiguousText).statetab i)
          mult := by
  have hchain : (initFile .empty ambiguousText).statetab (hash ([97, 1, 98], [99])) = [4, 2] := by
    decide +kernel
  have hnever : ∀ mult, ¬ Separates (initFile .empty ambiguousText)
      ((initFile .empty ambiguousText).statetab (hash ([97, 1, 98], [99]))) mult := by
    rw [hchain]
    apply @not_separates_of_stream_eq _ _ 4 2 <;> decide +kernel
  refine ⟨?_, ?_, _, hash_lt _, hnever⟩
  · unfold Readable
    decide +kernel
  · rw [← Option.not_isSome_iff_eq_none, (idealHashing_initFile ambiguousText).1]
    intro hall
    rcases hall _ (hash_lt _) (by rw [hchain]; simp) with ⟨mult, -, -, hsep⟩
    exact hnever mult hsep

end SearchTools.Testbed
