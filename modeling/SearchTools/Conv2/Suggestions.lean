/-
# What check makes of the suggestions

The suggestion that `check` returns, as a relation between texts, and the indices
that it uses in its scratch arrays. The arrays have `strlen(word)` elements, and
`word2int` stores a suggestion before its length is compared.
-/

import Mathlib.Data.List.Forall2
import SearchTools.Conv2.Check

namespace SearchTools.Conv2

open SearchTools.Library

/-! ## Restored words -/

/-- A character of a word and the character in its place. -/
def Restored (c d : Char) : Prop := if c = '?' then isLostLetter d = true else c = d

/-- `sug` is UTF-8, has as many characters as the word, is equal to it where the word
has no `?`, and has one of the lost letters where it has one. -/
def Restores (text : List Char) (sug : Bytes) : Prop :=
  ∃ text', sug = utf8 text' ∧ text' ≠ [] ∧ List.Forall₂ Restored text text'

/-- The suggestions as C strings. -/
def Hunhandle.suggestions (h : Hunhandle) (word : Bytes) : List Bytes := (h.suggest word).map cstr

/-- A suggestion leaves no `?`, so it is not the word. -/
theorem Restores.ne_utf8 {text : List Char} {sug : Bytes} (hsug : Restores text sug)
    (hmark : '?' ∈ text) : sug ≠ utf8 text := by
  intro heq
  rcases hsug with ⟨text', hutf8, -, hrestored⟩
  have htext : text' = text := utf8_inj (hutf8.symm.trans heq)
  rw [htext, List.forall₂_same] at hrestored
  have hlost := hrestored '?' hmark
  rw [Restored, if_pos rfl] at hlost
  exact absurd hlost (by decide)

theorem fits_iff {iword isug : List Char} (hlength : iword.length = isug.length) :
    fits iword isug = true ↔ List.Forall₂ Restored iword isug := by
  have hone : ∀ c d : Char,
      (if c = '?' then isLostLetter d else decide (c = d)) = true ↔ Restored c d := by
    intro c d
    rw [Restored]
    split
    · exact Iff.rfl
    · exact decide_eq_true_iff
  rw [fits, List.all_eq_true, List.forall₂_iff_zip]
  constructor
  · intro hall
    exact ⟨hlength, fun hmem => (hone _ _).mp (hall _ hmem)⟩
  · rintro ⟨-, hzip⟩ p hp
    exact (hone p.1 p.2).mpr (hzip hp)

/-! ## The loop over the suggestions -/

/-- The two tests of the loop over the suggestions. -/
theorem restores_iff {text : List Char} {sug : Bytes} :
    Restores text sug ↔ ((storedText sug).length ≠ 0 ∧ text.length = (storedText sug).length) ∧
      fits text (storedText sug) = true := by
  constructor
  · rintro ⟨text', rfl, hne, hrestored⟩
    rw [storedText_utf8]
    have hlength := hrestored.length_eq
    exact ⟨⟨mt List.length_eq_zero_iff.mp hne, hlength⟩, (fits_iff hlength).mpr hrestored⟩
  · rintro ⟨⟨hne, hlength⟩, hfits⟩
    have hne' : storedText sug ≠ [] := mt List.length_eq_zero_iff.mpr hne
    exact ⟨_, utf8_storedText hne', hne', (fits_iff hlength).mp hfits⟩

instance (text : List Char) (sug : Bytes) : Decidable (Restores text sug) :=
  decidable_of_iff _ restores_iff.symm

/-- One round of the loop over the suggestions. -/
theorem firstFit_cons (l : ℕ) (text : List Char) (sug : Bytes) (sugs : List Bytes) :
    firstFit l text (sug :: sugs) =
      if (storedText (cstr sug)).length ≤ l then
        if Restores text (cstr sug) then .ok (some (cstr sug)) else firstFit l text sugs
      else .error .outOfBounds := by
  rw [firstFit, word2int_eq]
  by_cases hroom : (storedText (cstr sug)).length ≤ l
  · rw [if_pos hroom, if_pos hroom]
    show (if _ then _ else _) = _
    by_cases hskip : (storedText (cstr sug)).length = 0 ∨
        text.length ≠ (storedText (cstr sug)).length
    · have hnot : ¬ Restores text (cstr sug) := by
        intro hrestores
        have hboth := (restores_iff.mp hrestores).1
        rcases hskip with hzero | hne
        · exact hboth.1 hzero
        · exact hne hboth.2
      rw [if_pos hskip, if_neg hnot]
    · rw [if_neg hskip]
      rcases not_or.mp hskip with ⟨hzero, hne⟩
      have hrestores : Restores text (cstr sug) ↔ fits text (storedText (cstr sug)) = true := by
        rw [restores_iff]
        exact and_iff_right ⟨hzero, not_not.mp hne⟩
      by_cases hfits : fits text (storedText (cstr sug)) = true
      · rw [if_pos hfits, if_pos (hrestores.mpr hfits)]
      · rw [if_neg hfits, if_neg (mt hrestores.mp hfits)]
  · rw [if_neg hroom, if_neg hroom]
    rfl

/-! ## The word that is returned -/

/-- With room for each suggestion the loop finds the first one that restores the word. -/
theorem firstFit_eq {l : ℕ} (text : List Char) {sugs : List Bytes}
    (hroom : ∀ sug ∈ sugs, (storedText (cstr sug)).length ≤ l) :
    firstFit l text sugs = .ok ((sugs.map cstr).find? (decide <| Restores text ·)) := by
  induction sugs with
  | nil => rfl
  | cons sug sugs ih =>
      rcases List.forall_mem_cons.mp hroom with ⟨hsug, hsugs⟩
      rw [firstFit_cons, if_pos hsug, ih hsugs, List.map_cons]
      by_cases hrestores : Restores text (cstr sug)
      · have hfound : decide (Restores text (cstr sug)) = true := decide_eq_true hrestores
        rw [if_pos hrestores, List.find?_cons, hfound]
      · have hfound : decide (Restores text (cstr sug)) = false := decide_eq_false hrestores
        rw [if_neg hrestores, List.find?_cons, hfound]

/-- With room for each suggestion `check` returns the first one that restores the word,
and the word if there is none. -/
theorem Searches.check_eq_find {h : Hunhandle} {word : Bytes} (hsearches : Searches h word)
    (hroom : ∀ sug ∈ h.suggestions word, ∀ text, sug = utf8 text → text.length ≤ word.length) :
    check h word = .ok (((h.suggestions word).find?
      (decide <| Restores (storedText word) ·)).getD word) := by
  have hstored : ∀ sug ∈ h.suggest word, (storedText (cstr sug)).length ≤ word.length := by
    intro sug hsug
    by_cases hempty : storedText (cstr sug) = []
    · rw [hempty]
      exact Nat.zero_le _
    · exact hroom _ (List.mem_map_of_mem hsug) _ (utf8_storedText hempty)
  rw [hsearches.check_eq, firstFit_eq _ hstored]
  rfl

/-- `x` is the first entry of a list with a property. -/
def IsFirst {α : Type*} (P : α → Prop) (xs : List α) (x : α) : Prop :=
  P x ∧ ∃ before after, xs = before ++ x :: after ∧ ∀ y ∈ before, ¬ P y

theorem isFirst_of_find? {α : Type*} {P : α → Prop} [DecidablePred P] {xs : List α} {x : α}
    (h : xs.find? (decide <| P ·) = some x) : IsFirst P xs x ∧ x ∈ xs := by
  rcases List.find?_eq_some_iff_append.mp h with ⟨hx, before, after, hxs, hbefore⟩
  refine ⟨⟨of_decide_eq_true hx, before, after, hxs, ?_⟩, List.mem_of_find?_eq_some h⟩
  intro y hy hother
  have hnot := hbefore y hy
  rw [decide_eq_true hother] at hnot
  cases hnot

/-- For a word in UTF-8 and suggestions that fit in the scratch array, `check` returns
the word, or the first suggestion that restores it, and it returns a suggestion
exactly when the word is rejected, has a `?`, and there is such a suggestion. -/
theorem check_restores (h : Hunhandle) {text : List Char} (hmark : text ≠ ['?'])
    (hroom : ∀ sug ∈ h.suggestions (utf8 text), ∀ text', sug = utf8 text' →
      text'.length ≤ (utf8 text).length) :
    ∃ ret, check h (utf8 text) = .ok ret ∧
      (ret = utf8 text ∨ IsFirst (Restores text) (h.suggestions (utf8 text)) ret) ∧
      (ret ≠ utf8 text ↔ h.spell (utf8 text) = false ∧ '?' ∈ text ∧
        ∃ sug ∈ h.suggestions (utf8 text), Restores text sug) := by
  have hbyte : 63 ∈ utf8 text ↔ '?' ∈ text := mem_utf8_iff (by decide) (by decide)
  have hword : utf8 text ≠ [63] := by
    intro heq
    exact hmark (utf8_inj heq)
  by_cases hsearches : Searches h (utf8 text)
  · have hcheck := hsearches.check_eq_find hroom
    have hmem := hbyte.mp hsearches.mark
    rw [storedText_utf8] at hcheck
    cases hfind : (h.suggestions (utf8 text)).find? (decide <| Restores text ·) with
    | none =>
        rw [hfind] at hcheck
        refine ⟨utf8 text, hcheck, Or.inl rfl, fun hne => absurd rfl hne, ?_⟩
        rintro ⟨-, -, sug, hsug, hrestores⟩
        exact absurd (decide_eq_true hrestores) (List.find?_eq_none.mp hfind sug hsug)
    | some ret =>
        rw [hfind] at hcheck
        rcases isFirst_of_find? hfind with ⟨hfirst, hret⟩
        refine ⟨ret, hcheck, Or.inr hfirst, fun _ => ?_, fun _ => hfirst.1.ne_utf8 hmem⟩
        exact ⟨hsearches.rejected, hmem, ret, hret, hfirst.1⟩
  · refine ⟨utf8 text, check_of_not_searches hword hsearches, Or.inl rfl,
      fun hne => absurd rfl hne, ?_⟩
    rintro ⟨hrejected, hmem, -⟩
    refine absurd ⟨hword, hrejected, hbyte.mpr hmem, ?_⟩ hsearches
    rw [storedText_utf8]
    exact List.ne_nil_of_mem hmem

/-- The word `?а` and three suggestions: a shorter one, one that changes the intact
letter, and one that restores the word. -/
theorem check_restores_sample :
    ∃ ret, check ⟨fun _ => false, fun _ => [utf8 ['а'], utf8 ['и', 'о'], utf8 ['ш', 'а']]⟩
        (utf8 ['?', 'а']) = .ok ret ∧
      ret = utf8 ['ш', 'а'] := by
  rcases @check_restores ⟨fun _ => false,
    fun _ => [utf8 ['а'], utf8 ['и', 'о'], utf8 ['ш', 'а']]⟩ ['?', 'а'] (by decide) (by
      intro sug hsug text' hsug'
      simp only [Hunhandle.suggestions, List.map_cons, List.map_nil, List.mem_cons,
        List.not_mem_nil, or_false] at hsug
      rcases hsug with rfl | rfl | rfl
      · obtain rfl := @utf8_inj ['а'] text' hsug'
        decide
      · obtain rfl := @utf8_inj ['и', 'о'] text' hsug'
        decide
      · obtain rfl := @utf8_inj ['ш', 'а'] text' hsug'
        decide) with ⟨ret, hret, -, -⟩
  refine ⟨ret, hret, ?_⟩
  obtain rfl := Except.ok.inj hret
  decide

/-! ## The indices -/

/-- The indices that the comparison loop reads, from `j` on. It stops at the first
character that does not fit. -/
def comparedIndices : ℕ → List Char → List Char → List ℕ
  | j, c :: iword, d :: isug =>
      j :: if fits [c] [d] then comparedIndices (j + 1) iword isug else []
  | _, _, _ => []

/-- The indices that the loop over the suggestions uses: `word2int` stores each
suggestion from 0 on, and those of the length of the word are compared. -/
def suggestionIndices (iword : List Char) : List Bytes → List ℕ
  | [] => []
  | sug :: sugs =>
      let isug := storedText (cstr sug)
      List.range isug.length ++
        if isug.length = 0 ∨ iword.length ≠ isug.length then suggestionIndices iword sugs
        else comparedIndices 0 iword isug ++
          if fits iword isug then [] else suggestionIndices iword sugs

/-- The indices that `check` uses in its scratch arrays. -/
def checkIndices (h : Hunhandle) (word : Bytes) : List ℕ :=
  if word = [63] then []
  else if h.spell word then []
  else if 63 ∉ word then []
  else
    match h.suggest word with
    | [] => []
    | sugs =>
        let iword := storedText word
        List.range iword.length ++
          if iword.length = 0 then [] else suggestionIndices iword sugs

theorem lt_of_mem_comparedIndices {j i : ℕ} {iword isug : List Char}
    (hi : i ∈ comparedIndices j iword isug) : i < j + iword.length := by
  induction iword generalizing j isug with
  | nil => cases hi
  | cons c iword ih =>
      cases isug with
      | nil => cases hi
      | cons d isug =>
          rw [List.length_cons]
          rcases List.mem_cons.mp hi with heq | hrest
          · omega
          · split at hrest
            · have hlt := ih hrest
              omega
            · cases hrest

/-- The indices of one round are in the array if the suggestion has room. -/
theorem suggestionIndices_cons_iff {l : ℕ} {text : List Char} (htext : text.length ≤ l)
    (sug : Bytes) (sugs : List Bytes) :
    (∀ i ∈ suggestionIndices text (sug :: sugs), i < l) ↔
      (storedText (cstr sug)).length ≤ l ∧
        (Restores text (cstr sug) ∨ ∀ i ∈ suggestionIndices text sugs, i < l) := by
  have hstored : (∀ i ∈ List.range (storedText (cstr sug)).length, i < l) ↔
      (storedText (cstr sug)).length ≤ l := by
    simp only [List.mem_range]
    exact forall_lt_iff_le
  have hcompared : ∀ i ∈ comparedIndices 0 text (storedText (cstr sug)), i < l := by
    intro i hi
    have hlt := lt_of_mem_comparedIndices hi
    omega
  rw [suggestionIndices, List.forall_mem_append, hstored, restores_iff]
  apply and_congr_right
  intro _
  by_cases hskip : (storedText (cstr sug)).length = 0 ∨ text.length ≠ (storedText (cstr sug)).length
  · have hnot : ¬ ((storedText (cstr sug)).length ≠ 0 ∧
        text.length = (storedText (cstr sug)).length) := by
      rintro ⟨hne, hlength⟩
      rcases hskip with hzero | hother
      · exact hne hzero
      · exact hother hlength
    rw [if_pos hskip]
    simp only [hnot, false_and, false_or]
  · rw [if_neg hskip, List.forall_mem_append, and_iff_right hcompared]
    rcases not_or.mp hskip with ⟨hzero, hlength⟩
    by_cases hfits : fits text (storedText (cstr sug)) = true
    · rw [if_pos hfits]
      simp only [List.not_mem_nil, false_implies, implies_true, true_iff]
      exact Or.inl ⟨⟨hzero, not_not.mp hlength⟩, hfits⟩
    · rw [if_neg hfits, or_iff_right (fun hboth => hfits hboth.2)]

/-- The loop returns if its indices are in the array. -/
theorem exists_firstFit_iff {l : ℕ} {text : List Char} (htext : text.length ≤ l)
    (sugs : List Bytes) :
    (∃ found, firstFit l text sugs = .ok found) ↔ ∀ i ∈ suggestionIndices text sugs, i < l := by
  induction sugs with
  | nil =>
      constructor
      · intro _ i hi
        cases hi
      · intro _
        exact ⟨none, rfl⟩
  | cons sug sugs ih =>
      rw [suggestionIndices_cons_iff htext, ← ih, firstFit_cons]
      by_cases hroom : (storedText (cstr sug)).length ≤ l
      · rw [if_pos hroom, and_iff_right hroom]
        by_cases hrestores : Restores text (cstr sug)
        · rw [if_pos hrestores]
          exact iff_of_true ⟨_, rfl⟩ (Or.inl hrestores)
        · rw [if_neg hrestores, or_iff_right hrestores]
      · rw [if_neg hroom]
        constructor
        · rintro ⟨found, hfound⟩
          cases hfound
        · intro hboth
          exact absurd hboth.1 hroom

/-- The suggestions before the first one that restores the word. -/
def Hunhandle.passedOver (h : Hunhandle) (word : Bytes) : List Bytes :=
  (h.suggestions word).takeWhile fun sug => ¬ Restores (storedText word) sug

theorem forall_suggestionIndices_iff {l : ℕ} {text : List Char} (htext : text.length ≤ l)
    (sugs : List Bytes) :
    (∀ i ∈ suggestionIndices text sugs, i < l) ↔
      ∀ sug ∈ (sugs.map cstr).takeWhile fun sug => ¬ Restores text sug,
        (storedText sug).length ≤ l := by
  induction sugs with
  | nil => exact iff_of_true (fun i hi => by cases hi) (fun sug hsug => by cases hsug)
  | cons sug sugs ih =>
      rw [suggestionIndices_cons_iff htext, ih, List.map_cons, List.takeWhile_cons]
      by_cases hrestores : Restores text (cstr sug)
      · -- A suggestion that restores the word is as long as the word.
        have hlength := (restores_iff.mp hrestores).1.2
        rw [if_neg (by simpa using hrestores), ← hlength]
        exact iff_of_true ⟨htext, Or.inl hrestores⟩ (fun sug hsug => by cases hsug)
      · rw [if_pos (by simpa using hrestores), List.forall_mem_cons, or_iff_right hrestores]

/-- Every suggestion that `check` passes over has at most `strlen(word)` characters. -/
def HasRoomFor (h : Hunhandle) (word : Bytes) : Prop :=
  word = [63] ∨ h.spell word = true ∨ 63 ∉ word ∨ storedText word = [] ∨
    ∀ sug ∈ h.passedOver word, (storedText sug).length ≤ word.length

theorem hasRoomFor_of_not_searches {h : Hunhandle} {word : Bytes} (hsearches : ¬ Searches h word) :
    HasRoomFor h word := by
  by_contra hno
  rw [HasRoomFor, not_or, not_or, not_or, not_or] at hno
  rcases hno with ⟨hmark, hspell, hmem, htext, -⟩
  exact hsearches ⟨hmark, eq_false_of_ne_true hspell, not_not.mp hmem, htext⟩

theorem hasRoomFor_iff {h : Hunhandle} {word : Bytes} (hsearches : Searches h word) :
    HasRoomFor h word ↔ ∀ i ∈ suggestionIndices (storedText word) (h.suggest word),
      i < word.length := by
  rw [forall_suggestionIndices_iff (length_storedText_le word), HasRoomFor,
    or_iff_right hsearches.ne_mark, or_iff_right (ne_true_of_eq_false hsearches.rejected),
    or_iff_right (not_not.mpr hsearches.mark), or_iff_right hsearches.text]
  exact Iff.rfl

theorem checkIndices_of_not_searches {h : Hunhandle} {word : Bytes}
    (hsearches : ¬ Searches h word) : checkIndices h word = [] := by
  rw [checkIndices]
  by_cases hmark : word = [63]
  · rw [if_pos hmark]
  rw [if_neg hmark]
  by_cases hspell : h.spell word = true
  · rw [if_pos hspell]
  rw [if_neg hspell]
  by_cases hmem : 63 ∈ word
  · have htext : storedText word = [] := by
      by_contra hne
      exact hsearches ⟨hmark, eq_false_of_ne_true hspell, hmem, hne⟩
    rw [if_neg (not_not.mpr hmem), htext]
    cases h.suggest word with
    | nil => rfl
    | cons sug sugs => rfl
  · rw [if_pos hmem]

theorem Searches.checkIndices_iff {h : Hunhandle} {word : Bytes} (hsearches : Searches h word) :
    (∀ i ∈ checkIndices h word, i < word.length) ↔
      ∀ i ∈ suggestionIndices (storedText word) (h.suggest word), i < word.length := by
  have hspell : ¬ h.spell word = true := ne_true_of_eq_false hsearches.rejected
  have hlength : ¬ (storedText word).length = 0 := mt List.length_eq_zero_iff.mp hsearches.text
  have hword : ∀ i ∈ List.range (storedText word).length, i < word.length := by
    intro i hi
    exact Nat.lt_of_lt_of_le (List.mem_range.mp hi) (length_storedText_le word)
  rw [checkIndices, if_neg hsearches.ne_mark, if_neg hspell, if_neg (not_not.mpr hsearches.mark)]
  cases h.suggest word with
  | nil => exact Iff.rfl
  | cons sug sugs =>
      dsimp only
      rw [if_neg hlength, List.forall_mem_append, and_iff_right hword]

theorem Searches.exists_check_iff {h : Hunhandle} {word : Bytes} (hsearches : Searches h word) :
    (∃ ret, check h word = .ok ret) ↔
      ∃ found, firstFit word.length (storedText word) (h.suggest word) = .ok found := by
  rw [hsearches.check_eq]
  constructor
  · rintro ⟨ret, hret⟩
    rcases bind_eq_ok.mp hret with ⟨found, hfound, -⟩
    exact ⟨found, hfound⟩
  · rintro ⟨found, hfound⟩
    exact ⟨_, bind_eq_ok.mpr ⟨found, hfound, rfl⟩⟩

/-- Every index that `check` uses in its scratch arrays is below `strlen(word)`, and
`check` returns, if and only if the suggestions that it passes over have room. -/
theorem check_inBounds_iff (h : Hunhandle) (word : Bytes) :
    ((∀ i ∈ checkIndices h word, i < word.length) ↔ HasRoomFor h word) ∧
      ((∃ ret, check h word = .ok ret) ↔ HasRoomFor h word) := by
  by_cases hsearches : Searches h word
  · have hroom := hasRoomFor_iff hsearches
    rw [hsearches.checkIndices_iff, hsearches.exists_check_iff,
      exists_firstFit_iff (length_storedText_le word)]
    exact ⟨hroom.symm, hroom.symm⟩
  · have hroom := hasRoomFor_of_not_searches hsearches
    rw [checkIndices_of_not_searches hsearches]
    refine ⟨iff_of_true (fun i hi => by cases hi) hroom, iff_of_true ?_ hroom⟩
    by_cases hmark : word = [63]
    · rw [check, if_pos hmark]
      exact ⟨_, rfl⟩
    · exact ⟨_, check_of_not_searches hmark hsearches⟩

/-- A dictionary that suggests `abc` for every word. -/
def suggestsAbc : Hunhandle := ⟨fun _ => false, fun _ => [[97, 98, 99]]⟩

/-- The word `?a` and a suggestion of three letters: the third one is stored past the
two elements of the array. -/
theorem check_outOfBounds :
    ¬ (∀ i ∈ checkIndices suggestsAbc [63, 97], i < ([63, 97] : Bytes).length) ∧
      check suggestsAbc [63, 97] = .error .outOfBounds := by
  constructor
  · intro hall
    have hmem : 2 ∈ checkIndices suggestsAbc [63, 97] := by decide
    exact absurd (hall 2 hmem) (Nat.lt_irrefl 2)
  · decide

end SearchTools.Conv2
