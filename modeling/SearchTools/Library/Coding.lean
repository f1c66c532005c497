/-
# Codes that keep endings

Words over one alphabet written in another one. What matters for taking words apart
from the right is that the code of a string ends the code of a word only when the
string ends the word; UTF-8 is such a code.
-/

import Mathlib.Data.List.Infix
import SearchTools.Library.Utf8

namespace SearchTools.Library

variable {α β γ : Type}

/-- A code in which endings can be recognized. -/
structure Coding (φ : List α → List β) : Prop where
  append : ∀ a b, φ (a ++ b) = φ a ++ φ b
  suffix : ∀ e word, φ e <:+ φ word → e <:+ word

namespace Coding

variable {φ : List α → List β}

theorem id : Coding (id : List α → List α) := ⟨fun _ _ => rfl, fun _ _ h => h⟩

theorem suffix_iff (hφ : Coding φ) {e word : List α} : φ e <:+ φ word ↔ e <:+ word := by
  refine ⟨hφ.suffix e word, ?_⟩
  rintro ⟨rest, rfl⟩
  exact ⟨φ rest, (hφ.append rest e).symm⟩

theorem inj (hφ : Coding φ) {a b : List α} (h : φ a = φ b) : a = b := by
  have hab := hφ.suffix a b (h ▸ List.suffix_refl _)
  have hba := hφ.suffix b a (h ▸ List.suffix_refl _)
  exact hab.eq_of_length (Nat.le_antisymm hab.length_le hba.length_le)

/-- Of two endings of a word the longer one has the longer code. -/
theorem length_le_iff (hφ : Coding φ) {a b word : List α} (ha : a <:+ word) (hb : b <:+ word) :
    (φ a).length ≤ (φ b).length ↔ a.length ≤ b.length := by
  constructor
  · intro h
    exact (hφ.suffix a b (List.suffix_of_suffix_length_le (hφ.suffix_iff.mpr ha)
      (hφ.suffix_iff.mpr hb) h)).length_le
  · intro h
    exact (hφ.suffix_iff.mpr (List.suffix_of_suffix_length_le ha hb h)).length_le

end Coding

/-! ## UTF-8 -/

/-- The first byte of a character can be told from its other bytes. -/
theorem utf8EncodeChar_head (c : Char) : ∃ a rest, String.utf8EncodeChar c = a :: rest ∧
    (a.toNat < 0x80 ∨ 0xC0 ≤ a.toNat) ∧ ∀ b ∈ rest, 0x80 ≤ b.toNat ∧ b.toNat < 0xC0 := by
  unfold String.utf8EncodeChar
  dsimp only
  split_ifs with hlow hmid hhigh
  · refine ⟨_, [], rfl, ?_, fun _ h => absurd h List.not_mem_nil⟩
    simp only [UInt8.toNat_ofNat']
    omega
  all_goals
    refine ⟨_, _, rfl, ?_, ?_⟩
    · simp only [UInt8.toNat_ofNat']
      omega
    · simp only [List.mem_cons, List.not_mem_nil, or_false]
      rintro b hb
      rcases hb with rfl | rfl | rfl <;> simp only [UInt8.toNat_ofNat'] <;> omega

/-- A text does not start inside a character. -/
theorem Coding.utf8 : Coding utf8 := by
  refine ⟨utf8_append, fun e word h => ?_⟩
  induction word with
  | nil =>
      have hlength := Nat.le_trans (length_le_length_utf8 e) h.length_le
      obtain rfl := List.eq_nil_of_length_eq_zero (Nat.le_zero.mp hlength)
      exact List.suffix_refl _
  | cons c word ih =>
      have hword : Library.utf8 word <:+ Library.utf8 (c :: word) := List.suffix_append _ _
      by_cases hshort : (Library.utf8 e).length ≤ (Library.utf8 word).length
      · exact (ih (List.suffix_of_suffix_length_le h hword hshort)).trans (List.suffix_cons c word)
      cases e with
      | nil => exact List.nil_suffix
      | cons d e =>
          obtain ⟨pre, hpre⟩ := h
          cases pre with
          | nil =>
              have heq : d :: e = c :: word := utf8_inj hpre
              exact heq ▸ List.suffix_refl _
          | cons b pre =>
              obtain ⟨a, rest, hc, -, hrest⟩ := utf8EncodeChar_head c
              obtain ⟨a', rest', hd, ha', -⟩ := utf8EncodeChar_head d
              have hlength := congrArg List.length hpre
              rw [utf8_cons d e, hd] at hpre hlength hshort
              rw [utf8_cons, hc] at hpre hlength
              simp only [List.length_append, List.length_cons] at hlength hshort
              have hat := congrArg (fun s => s[pre.length + 1]?) hpre
              simp only [List.cons_append, List.getElem?_cons_succ] at hat
              rw [List.getElem?_append_right (Nat.le_refl _), Nat.sub_self,
                List.getElem?_append_left (by omega)] at hat
              have hmem := hrest a' (List.mem_of_getElem? hat.symm)
              omega

/-! ## The longest ending -/

/-- A string that ends a word twice. -/
theorem twice_suffix_iff {a rest : List α} : a ++ a <:+ rest ++ a ↔ a <:+ rest := by
  constructor
  · rintro ⟨front, hfront⟩
    rw [← List.append_assoc] at hfront
    exact ⟨front, List.append_cancel_right hfront⟩
  · rintro ⟨front, rfl⟩
    exact ⟨front, (List.append_assoc front a a).symm⟩

variable [DecidableEq α] [DecidableEq β] {v : List (List α × γ)} {word : List α}

/-- Whether a string ends a word, and no longer string of a list does. -/
def isEnding (v : List (List α × γ)) (word e : List α) : Bool :=
  decide (e <:+ word) && v.all fun u => !decide (u.1 <:+ word) || decide (u.1.length ≤ e.length)

/-- The longest string of a list that ends a word, with what the list says of it. -/
def ending (v : List (List α × γ)) (word : List α) : Option (List α × γ) :=
  v.find? fun e => isEnding v word e.1

theorem ending_some {e : List α × γ} (h : ending v word = some e) : e ∈ v ∧ e.1 <:+ word := by
  have hfound := List.find?_some h
  rw [isEnding, Bool.and_eq_true, decide_eq_true_iff] at hfound
  exact ⟨List.mem_of_find?_eq_some h, hfound.1⟩

variable {φ : List α → List β}

theorem isEnding_map (hφ : Coding φ) (v : List (List α × γ)) (word e : List α) :
    isEnding (v.map fun e => (φ e.1, e.2)) (φ word) (φ e) = isEnding v word e := by
  simp only [isEnding, hφ.suffix_iff, List.all_map]
  by_cases he : e <:+ word
  · refine congrArg _ (List.all_congr rfl fun u => ?_)
    by_cases hu : u.1 <:+ word
    · simp only [Function.comp_apply, hφ.suffix_iff, hu, hφ.length_le_iff hu he]
    · simp [hφ.suffix_iff, hu]
  · simp [he]

/-- The code of a word has the code of its ending. -/
theorem ending_map (hφ : Coding φ) (v : List (List α × γ)) (word : List α) :
    ending (v.map fun e => (φ e.1, e.2)) (φ word) =
      (ending v word).map fun e => (φ e.1, e.2) := by
  rw [ending, List.find?_map, ending]
  exact congrArg (fun test => (v.find? test).map fun e => (φ e.1, e.2))
    (funext fun e => isEnding_map hφ v word e.1)

end SearchTools.Library
