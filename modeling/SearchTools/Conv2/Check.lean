/-
# Filling in lost letters

`word2int` and `check` of `conv2/main.c`. Hunspell is a parameter. The scratch
arrays hold `strlen(word)` elements each; a store past them is a fault.
-/

import SearchTools.Library.CString
import SearchTools.Library.Utf8

namespace SearchTools.Conv2

open SearchTools.Library

/-- What the program asks of a Hunspell dictionary. -/
structure Hunhandle where
  spell : Bytes → Bool
  suggest : Bytes → List Bytes

/-- A dictionary that rejects every word and suggests none. -/
def rejecting : Hunhandle := ⟨fun _ => false, fun _ => []⟩

/-- `ret[i] = c` on an array of `l` characters of which `i` are stored. -/
def storeChar (l : ℕ) (ret : List Char) (c : Char) : Except Fault (List Char) :=
  if ret.length < l then .ok (ret ++ [c]) else .error .outOfBounds

/-- `word2int`: the characters stored, none for a string that is not UTF-8. Its
result is their number. -/
def word2int (l : ℕ) (word : Bytes) : Except Fault (List Char) :=
  match utf8Text word with
  | none => .ok []
  | some text => text.foldlM (storeChar l) []

/-- The letters that `check` accepts in the place of a `?`. -/
def isLostLetter (c : Char) : Bool := c == 'и' || c == 'И' || c == 'ш' || c == 'Ш'

/-- The comparison loop of `check`: `mask` is set where the word has a `?`. -/
def fits (iword isug : List Char) : Bool :=
  (iword.zip isug).all fun (c, d) => if c = '?' then isLostLetter d else c = d

/-- The loop over the suggestions: the first one that fits. -/
def firstFit (l : ℕ) (iword : List Char) : List Bytes → Except Fault (Option Bytes)
  | [] => .ok none
  | sug :: sugs => do
      let isug ← word2int l (cstr sug)
      if isug.length = 0 ∨ iword.length ≠ isug.length then firstFit l iword sugs
      else if fits iword isug then .ok (some (cstr sug))
      else firstFit l iword sugs

/-- `check`. -/
def check (h : Hunhandle) (word : Bytes) : Except Fault Bytes :=
  if word = [63] then .ok (utf8 ['и'])
  else if h.spell word then .ok word
  else if 63 ∉ word then .ok word
  else
    match h.suggest word with
    | [] => .ok word
    | sugs => do
        let iword ← word2int word.length word
        if iword.length = 0 then .ok word
        else
          match ← firstFit word.length iword sugs with
          | none => .ok word
          | some ret => .ok ret

/-! ## The scratch arrays -/

/-- The characters that `word2int` stores. -/
def storedText (word : Bytes) : List Char := (utf8Text word).getD []

theorem storedText_utf8 (text : List Char) : storedText (utf8 text) = text := by
  rw [storedText, utf8Text_utf8]
  rfl

theorem utf8_storedText {word : Bytes} (h : storedText word ≠ []) :
    word = utf8 (storedText word) := by
  rw [storedText] at h ⊢
  cases htext : utf8Text word with
  | none =>
      rw [htext] at h
      exact absurd rfl h
  | some text => exact utf8Text_eq_some_iff.mp htext

theorem length_storedText_le (word : Bytes) : (storedText word).length ≤ word.length := by
  by_cases h : storedText word = []
  · rw [h]
    exact Nat.zero_le _
  · have hword := length_le_length_utf8 (storedText word)
    rwa [← utf8_storedText h] at hword

theorem foldlM_storeChar {l : ℕ} (text ret : List Char) (hret : ret.length ≤ l) :
    text.foldlM (storeChar l) ret =
      if ret.length + text.length ≤ l then .ok (ret ++ text) else .error .outOfBounds := by
  induction text generalizing ret with
  | nil =>
      rw [List.append_nil, List.length_nil, Nat.add_zero, if_pos hret]
      rfl
  | cons c text ih =>
      rw [List.foldlM_cons, storeChar]
      have hlength : (ret ++ [c]).length + text.length = ret.length + (c :: text).length := by
        rw [List.length_append, List.length_singleton, List.length_cons, Nat.add_assoc,
          Nat.add_comm 1]
      by_cases hlt : ret.length < l
      · rw [if_pos hlt]
        show text.foldlM (storeChar l) (ret ++ [c]) = _
        rw [ih (ret ++ [c]) (by rw [List.length_append]; exact hlt), hlength, List.append_assoc]
        rfl
      · have hout : ¬ ret.length + (c :: text).length ≤ l := by
          rw [List.length_cons]
          omega
        rw [if_neg hlt, if_neg hout]
        rfl

/-- A string is stored if its characters fit in the array. -/
theorem word2int_eq (l : ℕ) (word : Bytes) :
    word2int l word =
      if (storedText word).length ≤ l then .ok (storedText word) else .error .outOfBounds := by
  rw [word2int, storedText]
  cases utf8Text word with
  | none => rw [Option.getD_none, List.length_nil, if_pos (Nat.zero_le l)]
  | some text =>
      have hstore := foldlM_storeChar text [] (Nat.zero_le l)
      rw [List.length_nil, Nat.zero_add, List.nil_append] at hstore
      exact hstore

/-! ## The ways through `check` -/

/-- `check` comes to its loop over the suggestions. -/
structure Searches (h : Hunhandle) (word : Bytes) : Prop where
  ne_mark : word ≠ [63]
  rejected : h.spell word = false
  mark : 63 ∈ word
  text : storedText word ≠ []

theorem Searches.check_eq {h : Hunhandle} {word : Bytes} (hsearches : Searches h word) :
    check h word = firstFit word.length (storedText word) (h.suggest word) >>= fun found =>
      .ok (found.getD word) := by
  have hspell : ¬ h.spell word = true := ne_true_of_eq_false hsearches.rejected
  rw [check, if_neg hsearches.ne_mark, if_neg hspell, if_neg (not_not.mpr hsearches.mark)]
  have hstored := word2int_eq word.length word
  rw [if_pos (length_storedText_le word)] at hstored
  have hlength : ¬ (storedText word).length = 0 := mt List.length_eq_zero_iff.mp hsearches.text
  cases h.suggest word with
  | nil => rfl
  | cons sug sugs =>
      simp only [hstored, bind, Except.bind, if_neg hlength]
      cases firstFit word.length (storedText word) (sug :: sugs) with
      | error fault => rfl
      | ok found =>
          cases found with
          | none => rfl
          | some ret => rfl

theorem check_of_not_searches {h : Hunhandle} {word : Bytes} (hmark : word ≠ [63])
    (hsearches : ¬ Searches h word) : check h word = .ok word := by
  rw [check, if_neg hmark]
  by_cases hspell : h.spell word = true
  · rw [if_pos hspell]
  rw [if_neg hspell]
  by_cases hmem : 63 ∈ word
  · have htext : (storedText word).length = 0 := by
      by_contra hne
      exact hsearches ⟨hmark, eq_false_of_ne_true hspell, hmem, mt List.length_eq_zero_iff.mpr hne⟩
    have hstored := word2int_eq word.length word
    rw [if_pos (length_storedText_le word)] at hstored
    rw [if_neg (not_not.mpr hmem)]
    cases h.suggest word with
    | nil => rfl
    | cons sug sugs =>
        simp only [hstored, bind, Except.bind, if_pos htext]
  · rw [if_pos hmem]

/-- A word without `?` is returned as it is. -/
theorem check_of_notMem {h : Hunhandle} {word : Bytes} (hword : 63 ∉ word) :
    check h word = .ok word := by
  apply check_of_not_searches
  · intro heq
    exact hword (heq ▸ List.mem_singleton_self 63)
  · intro hsearches
    exact hword hsearches.mark

theorem zero_notMem_firstFit {l : ℕ} {iword : List Char} {sugs : List Bytes} {ret : Bytes}
    (h : firstFit l iword sugs = .ok (some ret)) : 0 ∉ ret := by
  induction sugs with
  | nil => cases h
  | cons sug sugs ih =>
      rw [firstFit] at h
      obtain ⟨isug, -, h⟩ := bind_eq_ok.mp h
      split at h
      · exact ih h
      · split at h
        · obtain rfl := Option.some.inj (Except.ok.inj h)
          exact zero_notMem_cstr sug
        · exact ih h

/-- What `check` returns is a C string. -/
theorem zero_notMem_check {h : Hunhandle} {word ret : Bytes} (hword : 0 ∉ word)
    (hret : check h word = .ok ret) : 0 ∉ ret := by
  by_cases hmark : word = [63]
  · rw [check, if_pos hmark] at hret
    obtain rfl := Except.ok.inj hret
    decide
  by_cases hsearches : Searches h word
  · rw [hsearches.check_eq] at hret
    rcases bind_eq_ok.mp hret with ⟨found, hfound, hret⟩
    obtain rfl := Except.ok.inj hret
    cases found with
    | none => exact hword
    | some sug => exact zero_notMem_firstFit hfound
  · rw [check_of_not_searches hmark hsearches] at hret
    exact Except.ok.inj hret ▸ hword

/-! ## Faults -/

end SearchTools.Conv2
