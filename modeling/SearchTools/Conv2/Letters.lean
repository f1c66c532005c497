/-
# Words of Russian letters

What becomes of a word that needs no repair. Its letters are the bytes C0 to FF in
cp1251, and none of these is a second byte in UTF-8, so the second conversion
reports an error and the word is returned. A single letter whose byte could begin a
character is dropped instead.
-/

import SearchTools.Conv2.Repair

namespace SearchTools.Conv2

open SearchTools.Library

variable {glib : Glib} {text : List Char}

/-- The letters from А to я. -/
def IsLetter (c : Char) : Prop := 0x410 ≤ c.toNat ∧ c.toNat ≤ 0x44F

/-- The byte of a letter. -/
def letterByte (c : Char) : UInt8 := UInt8.ofNat (c.toNat - 0x350)

theorem toNat_letterByte {c : Char} (hc : IsLetter c) : (letterByte c).toNat = c.toNat - 0x350 := by
  rcases hc with ⟨hlow, hhigh⟩
  rw [letterByte, UInt8.toNat_ofNat']
  omega

theorem le_letterByte {c : Char} (hc : IsLetter c) : 0xC0 ≤ letterByte c := by
  have hbyte := toNat_letterByte hc
  rcases hc with ⟨hlow, -⟩
  rw [UInt8.le_iff_toNat_le, hbyte]
  show 192 ≤ _
  omega

theorem cp1251Char_letterByte {c : Char} (hc : IsLetter c) :
    cp1251Char (letterByte c) = some c := by
  have hbyte := toNat_letterByte hc
  have hge := le_letterByte hc
  have hascii : ¬ letterByte c < 0x80 := by
    intro hlt
    exact absurd (UInt8.lt_of_le_of_lt hge hlt) (by decide)
  have hnone : letterByte c ≠ 0x98 := by
    intro heq
    rw [heq] at hge
    exact absurd hge (by decide)
  have htable : ¬ letterByte c < 0xC0 := UInt8.not_lt.mpr hge
  rcases hc with ⟨hlow, -⟩
  have hnat : 0x350 + (c.toNat - 0x350) = c.toNat := by omega
  rw [cp1251Char, if_neg hascii, if_neg hnone, if_neg htable, hbyte, hnat, Char.ofNat_toNat]

/-- The bytes of a word of letters. -/
theorem isCp1251_letters (hletters : ∀ c ∈ text, IsLetter c) :
    IsCp1251 (text.map letterByte) text := by
  induction text with
  | nil => exact .nil
  | cons c text ih =>
      rcases List.forall_mem_cons.mp hletters with ⟨hc, hrest⟩
      exact .cons (cp1251Char_letterByte hc) (ih hrest)

theorem le_of_mem_letters (hletters : ∀ c ∈ text, IsLetter c) :
    ∀ b ∈ text.map letterByte, 0xC0 ≤ b := by
  intro b hb
  rcases List.mem_map.mp hb with ⟨c, hc, heq⟩
  rw [← heq]
  exact le_letterByte (hletters c hc)

theorem le_of_mem_utf8_letters (hletters : ∀ c ∈ text, IsLetter c) : ∀ b ∈ utf8 text, 0x80 ≤ b := by
  apply le_of_mem_utf8 _ (isCp1251_letters hletters)
  intro b hb
  exact UInt8.le_trans (by decide) (le_of_mem_letters hletters b hb)

/-- One letter alone, from В to э: its byte could begin a character. -/
def IsLost (text : List Char) : Prop := ∃ c, text = [c] ∧ 0x412 ≤ c.toNat ∧ c.toNat ≤ 0x44D

/-- The byte of a lost letter is taken for the beginning of a character. -/
theorem convert_letterByte (hglib : glib.Converts) {c : Char} (hlow : 0x412 ≤ c.toNat)
    (hhigh : c.toNat ≤ 0x44D) :
    glib.gConvertWithFallback [letterByte c] .cp1251 .utf8 = some [] := by
  have hletter : IsLetter c := ⟨by omega, by omega⟩
  have hbyte := toNat_letterByte hletter
  rcases Nat.lt_or_ge c.toNat 0x445 with hlead | hold
  · refine hglib.toCp1251 .nil (isIncomplete_iff.mp ?_)
    simp only [isIncomplete, Bool.and_eq_true, decide_eq_true_eq, UInt8.le_iff_toNat_le, hbyte,
      UInt8.reduceToNat]
    omega
  · refine hglib.oldFirst .nil ?_ ?_ <;>
      simp only [UInt8.le_iff_toNat_le, hbyte, UInt8.reduceToNat] <;> omega

/-- Only the byte of a lost letter can be read as UTF-8. -/
theorem isLost_of_scans (hne : text ≠ []) (hletters : ∀ c ∈ text, IsLetter c) {text' : List Char}
    {tail : Bytes} (htail : MayContinue tail)
    (hscan : text.map letterByte = utf8 text' ++ tail) : IsLost text := by
  rcases eq_singleton_of_high (le_of_mem_letters hletters) (mt List.map_eq_nil_iff.mp hne) hscan
    htail with ⟨a, hone, hlow, hhigh⟩
  rcases List.map_eq_singleton_iff.mp hone with ⟨c, htext, hc⟩
  have hletter : IsLetter c := hletters c (by rw [htext]; exact List.mem_cons_self)
  have hbyte := toNat_letterByte hletter
  rcases hletter with ⟨hfrom, hto⟩
  simp only [UInt8.le_iff_toNat_le, UInt8.reduceToNat, ← hc, hbyte] at hlow hhigh
  exact ⟨c, htext, by omega, by omega⟩

/-- The conversions of a word of letters: the second one reports an error, or drops
the only letter. -/
theorem convertSegment_letters (hglib : glib.Converts) (hne : text ≠ [])
    (hletters : ∀ c ∈ text, IsLetter c) :
    (IsLost text → convertSegment glib (utf8 text) = some []) ∧
      (¬ IsLost text → convertSegment glib (utf8 text) = none) := by
  have hnil : IsIncomplete [] := isIncomplete_iff.mp rfl
  have hclean : 0 ∉ text.map letterByte := by
    apply zero_notMem_of_le
    intro b hb
    exact UInt8.le_trans (by decide) (le_of_mem_letters hletters b hb)
  have hfirst : glib.gConvertWithFallback (utf8 text) .cp1251 .utf8 =
      some (text.map letterByte) := by
    have hconverts := hglib.toCp1251 (isCp1251_letters hletters) hnil
    rwa [List.append_nil] at hconverts
  constructor
  · rintro ⟨c, rfl, hlow, hhigh⟩
    have hsecond := convert_letterByte hglib hlow hhigh
    have hthird : glib.gConvertWithFallback [] .utf8 .cp1251 = some [] := hglib.fromCp1251 .nil
    have hempty : cstr [] = [] := rfl
    rw [List.map_singleton] at hfirst hclean
    simp only [convertSegment, hfirst, cstr_eq_self hclean, hsecond, hempty, hthird,
      Option.bind_eq_bind, Option.bind_some, Option.pure_def]
  · intro hkept
    have hsecond : glib.gConvertWithFallback (text.map letterByte) .cp1251 .utf8 = none := by
      apply hglib.illFormed
      intro text' tail htail hscan
      exact hkept (isLost_of_scans hne hletters htail hscan)
    simp only [convertSegment, hfirst, cstr_eq_self hclean, hsecond, Option.bind_eq_bind,
      Option.bind_some, Option.bind_none]

/-! ## The word -/

/-- The word is the only token of the first call of `strtok`, which leaves it as it is. -/
theorem next_letters (hne : text ≠ []) (hletters : ∀ c ∈ text, IsLetter c) :
    (Strtok.start (utf8 text)).next isQuestion = some (utf8 text, ⟨utf8 text, []⟩) := by
  have hhigh := le_of_mem_utf8_letters hletters
  have htoken : ∀ b ∈ utf8 text, isQuestion b = false := by
    intro b hb
    have hmark : b ≠ 63 := by
      intro heq
      exact absurd (heq ▸ hhigh b hb) (by decide)
    simpa [isQuestion] using hmark
  have hword : utf8 text ≠ [] := by
    intro hnil
    exact hne (@utf8_inj text [] hnil)
  have hnext := @Strtok.next_token isQuestion [] [] _ [] (by simp) htoken hword (by simp)
  rw [List.nil_append, List.nil_append, List.append_nil] at hnext
  rw [Strtok.start, cstr_eq_self (zero_notMem_of_le hhigh)]
  exact hnext

theorem convertWord_letters (hglib : glib.Converts) (hne : text ≠ [])
    (hletters : ∀ c ∈ text, IsLetter c) :
    (IsLost text → convertWord glib (utf8 text) false = .ok (.built [])) ∧
      (¬ IsLost text → convertWord glib (utf8 text) false = .ok (.failed (utf8 text))) := by
  have hnext := next_letters hne hletters
  rcases convertSegment_letters hglib hne hletters with ⟨hlost, hkept⟩
  constructor
  · intro h
    rcases convertLoop_step (utf8 text).length (hasRoom_start _) hnext (hlost h)
      (Nat.zero_le _) with ⟨-, hstep⟩
    have hpos : 0 < (utf8 text).length :=
      Nat.lt_of_lt_of_le (List.length_pos_iff.mpr hne) (length_le_length_utf8 text)
    rcases Nat.exists_eq_succ_of_ne_zero (Nat.ne_of_gt hpos) with ⟨fuel, hfuel⟩
    rw [convertWord, hstep, hfuel]
    rfl
  · intro h
    have hheld : Strtok.held ⟨utf8 text, []⟩ = utf8 text := by
      rw [Strtok.held, List.append_nil]
      exact cstr_eq_self (zero_notMem_of_le (le_of_mem_utf8_letters hletters))
    rw [convertWord, convertLoop, hnext]
    dsimp only
    rw [hkept h, hheld]
    rfl

/-- `try_convert` returns a word of letters as it is if and only if Hunspell accepts
it, or it is not a single letter from В to э. -/
theorem tryConvert_letters_iff (hglib : glib.Converts) (h : Hunhandle) (hne : text ≠ [])
    (hletters : ∀ c ∈ text, IsLetter c) :
    tryConvert glib h (utf8 text) = .ok (utf8 text) ↔
      h.spell (utf8 text) = true ∨ ¬ IsLost text := by
  have hword : utf8 text ≠ [] := by
    intro hnil
    exact hne (@utf8_inj text [] hnil)
  by_cases hspell : h.spell (utf8 text) = true
  · exact iff_of_true (tryConvert_of_spell hword hspell) (Or.inl hspell)
  · rw [or_iff_right hspell]
    have hlast := List.getLast?_eq_some_getLast hword
    have hmark : ((utf8 text).getLast hword == 63) = false := by
      have hhigh := le_of_mem_utf8_letters hletters _ (List.getLast_mem hword)
      rw [beq_eq_false_iff_ne]
      intro heq
      exact absurd (heq ▸ hhigh) (by decide)
    rcases convertWord_letters hglib hne hletters with ⟨hlost, hkept⟩
    by_cases h' : IsLost text
    · have htry : tryConvert glib h (utf8 text) = check h [] := by
        rw [tryConvert, hlast]
        dsimp only
        rw [if_neg hspell, hmark, hlost h']
        rfl
      have hempty : check h [] = .ok [] := check_of_notMem List.not_mem_nil
      refine iff_of_false ?_ (not_not.mpr h')
      rw [htry, hempty]
      intro heq
      exact hword (Except.ok.inj heq).symm
    · refine iff_of_true ?_ h'
      rw [tryConvert, hlast]
      dsimp only
      rw [if_neg hspell, hmark, hkept h']
      rfl

/-- The word `да`. -/
theorem tryConvert_letters_sample :
    tryConvert Conv2.glib rejecting (utf8 ['д', 'а']) = .ok (utf8 ['д', 'а']) := by
  apply (tryConvert_letters_iff glib_converts rejecting (by decide) ?_).mpr
  · exact Or.inr (fun hlost => by rcases hlost with ⟨c, hc, -⟩; cases hc)
  · intro c hc
    rcases List.mem_cons.mp hc with heq | hc
    · rw [heq]
      exact ⟨by decide, by decide⟩
    · rw [List.mem_singleton.mp hc]
      exact ⟨by decide, by decide⟩

/-- The word `в` becomes the empty string. -/
theorem tryConvert_loses_letter :
    tryConvert Conv2.glib rejecting (utf8 ['в']) = .ok [] ∧
      ¬ tryConvert Conv2.glib rejecting (utf8 ['в']) = .ok (utf8 ['в']) := by
  have hlost : tryConvert Conv2.glib rejecting (utf8 ['в']) = .ok [] := by decide +kernel
  refine ⟨hlost, ?_⟩
  rw [hlost]
  decide

end SearchTools.Conv2
