/-
# Repairing a word

`try_convert` of `conv2/main.c`. `strtok` cuts the word at its `?` while the
loop reads it, so an error exit returns what the block of the word holds by
then. The repaired text is built in a block of ten bytes for each byte of the
word; a `strcat` past its end is a fault.
-/

import SearchTools.Conv2.Check
import SearchTools.Conv2.Glib

namespace SearchTools.Conv2

open SearchTools.Library

/-- `sep`. -/
def isQuestion (b : UInt8) : Bool := b == 63

/-- The three conversions of a segment; none when one of them reports an error. -/
def convertSegment (glib : Glib) (w : Bytes) : Option Bytes := do
  let ans1 ← glib.gConvertWithFallback w .cp1251 .utf8
  let ans2 ← glib.gConvertWithFallback (cstr ans1) .cp1251 .utf8
  let ans1 ← glib.gConvertWithFallback (cstr ans2) .utf8 .cp1251
  return cstr ans1

/-- How the conversion of a word ends: at an error exit, with the string that the
block of the word holds, or with the string built in `buf`. -/
inductive Attempt
  | failed (word : Bytes)
  | built (buf : Bytes)
  deriving DecidableEq, Repr

def Attempt.text : Attempt → Bytes
  | failed word => word
  | built buf => buf

/-- The loop over the segments. `buf` lies in a block of `size` bytes. -/
def convertLoop (glib : Glib) (size : ℕ) : ℕ → Strtok → Bytes → Except Fault Attempt
  | 0, _, _ => .error .outOfFuel
  | fuel + 1, st, buf =>
      match st.next isQuestion with
      | none => .ok (.built buf)
      | some (w, st) =>
          match convertSegment glib w with
          | none => .ok (.failed st.held)
          | some ans => do
              let buf ← strcat size buf ans
              let buf ← strcat size buf [63]
              convertLoop glib size fuel st buf

/-- `buf[strlen(buf) - 1] = 0`. -/
def trim (buf : Bytes) : Except Fault Bytes :=
  if buf = [] then .error .outOfBounds else .ok buf.dropLast

/-- The loop and the trim after it: `flag` says whether the word ends in `?`. -/
def convertWord (glib : Glib) (word : Bytes) (flag : Bool) : Except Fault Attempt := do
  match ← convertLoop glib (10 * word.length) (word.length + 1) (Strtok.start word) [] with
  | .failed held => .ok (.failed held)
  | .built buf => if flag then .ok (.built buf) else .built <$> trim buf

/-- `try_convert`. -/
def tryConvert (glib : Glib) (h : Hunhandle) (word : Bytes) : Except Fault Bytes :=
  match word.getLast? with
  | none => .error .outOfBounds -- `word[l - 1]`
  | some last =>
      if h.spell word then .ok word
      else do
        match ← convertWord glib word (last == 63) with
        | .failed held => .ok held
        | .built buf => check h buf

/-- A word that Hunspell accepts is returned as it is. -/
theorem tryConvert_of_spell {glib : Glib} {h : Hunhandle} {word : Bytes} (hne : word ≠ [])
    (hspell : h.spell word) : tryConvert glib h word = .ok word := by
  rw [tryConvert, List.getLast?_eq_some_getLast hne]
  exact if_pos hspell

/-! ## One segment -/

theorem zero_notMem_convertSegment {glib : Glib} {w ans : Bytes}
    (h : convertSegment glib w = some ans) : 0 ∉ ans := by
  simp only [convertSegment, Option.bind_eq_bind, Option.bind_eq_some_iff, Option.pure_def,
    Option.some.injEq] at h
  obtain ⟨-, -, -, -, ans3, -, rfl⟩ := h
  exact zero_notMem_cstr ans3

/-- There is room for the rest of the word: five bytes for each byte of it. -/
def HasRoom (size : ℕ) (st : Strtok) (buf : Bytes) : Prop :=
  buf.length + 5 * st.rest.length ≤ size

theorem hasRoom_start (word : Bytes) : HasRoom (10 * word.length) (Strtok.start word) [] := by
  have hlength : (cstr word).length ≤ word.length := (List.takeWhile_sublist _).length_le
  simp only [HasRoom, Strtok.start, List.length_nil]
  omega

/-- A converted segment is appended with a `?`, and room is left for the rest. -/
theorem convertLoop_step {glib : Glib} {size : ℕ} {st st' : Strtok} {buf w ans : Bytes} (fuel : ℕ)
    (hroom : HasRoom size st buf) (hnext : st.next isQuestion = some (w, st'))
    (hans : convertSegment glib w = some ans) (hsize : ans.length ≤ 3 * w.length) :
    HasRoom size st' (buf ++ ans ++ [63]) ∧
      convertLoop glib size (fuel + 1) st buf =
        convertLoop glib size fuel st' (buf ++ ans ++ [63]) := by
  obtain ⟨hne, hshorter⟩ := Strtok.length_of_next hnext
  have hpos : 0 < w.length := List.length_pos_iff.mpr hne
  unfold HasRoom at hroom ⊢
  have hfirst : buf.length + ans.length < size := by omega
  have hsecond : (buf ++ ans).length + [(63 : UInt8)].length < size := by
    simp only [List.length_append, List.length_singleton]
    omega
  constructor
  · simp only [List.length_append, List.length_singleton]
    omega
  · rw [convertLoop, hnext]
    simp only [hans, strcat_of_lt hfirst, strcat_of_lt hsecond, bind, Except.bind]

theorem convertSegment_length {glib : Glib} (hsized : glib.Sized) {w ans : Bytes}
    (h : convertSegment glib w = some ans) : ans.length ≤ 3 * w.length := by
  simp only [convertSegment, Option.bind_eq_bind, Option.bind_eq_some_iff, Option.pure_def,
    Option.some.injEq] at h
  obtain ⟨ans1, h1, ans2, h2, ans3, h3, rfl⟩ := h
  have hcstr : ∀ s : Bytes, (cstr s).length ≤ s.length := fun s =>
    (List.takeWhile_sublist _).length_le
  calc (cstr ans3).length
      ≤ ans3.length := hcstr ans3
    _ ≤ 3 * (cstr ans2).length := hsized.fromCp1251 h3
    _ ≤ 3 * ans2.length := Nat.mul_le_mul_left 3 (hcstr ans2)
    _ ≤ 3 * (cstr ans1).length := Nat.mul_le_mul_left 3 (hsized.toCp1251 h2)
    _ ≤ 3 * ans1.length := Nat.mul_le_mul_left 3 (hcstr ans1)
    _ ≤ 3 * w.length := Nat.mul_le_mul_left 3 (hsized.toCp1251 h1)

/-- Neither the string built nor the one an error exit returns has a NUL in it. -/
theorem zero_notMem_convertLoop {glib : Glib} {size fuel : ℕ} {st : Strtok} {buf : Bytes}
    {attempt : Attempt} (hbuf : 0 ∉ buf) (h : convertLoop glib size fuel st buf = .ok attempt) :
    0 ∉ attempt.text := by
  induction fuel generalizing st buf with
  | zero => cases h
  | succ fuel ih =>
      rw [convertLoop] at h
      cases hnext : st.next isQuestion with
      | none =>
          simp only [hnext] at h
          exact Except.ok.inj h ▸ hbuf
      | some found =>
          obtain ⟨w, st'⟩ := found
          cases hans : convertSegment glib w with
          | none =>
              simp only [hnext, hans] at h
              exact Except.ok.inj h ▸ zero_notMem_cstr _
          | some ans =>
              simp only [hnext, hans] at h
              obtain ⟨buf₁, hfirst, h⟩ := bind_eq_ok.mp h
              obtain ⟨buf₂, hsecond, h⟩ := bind_eq_ok.mp h
              refine ih ?_ h
              rw [eq_of_strcat hsecond, eq_of_strcat hfirst]
              have hclean : 0 ∉ ans := zero_notMem_convertSegment hans
              simp [hbuf, hclean]

theorem zero_notMem_tryConvert {glib : Glib} {h : Hunhandle} {word ret : Bytes}
    (hword : 0 ∉ word) (hret : tryConvert glib h word = .ok ret) : 0 ∉ ret := by
  unfold tryConvert at hret
  split at hret
  · cases hret
  split at hret
  · exact Except.ok.inj hret ▸ hword
  obtain ⟨attempt, hattempt, hret⟩ := bind_eq_ok.mp hret
  obtain ⟨attempt', hloop, htrim⟩ := bind_eq_ok.mp hattempt
  have hclean := zero_notMem_convertLoop List.not_mem_nil hloop
  cases attempt' with
  | failed held =>
      obtain rfl := Except.ok.inj htrim
      exact Except.ok.inj hret ▸ hclean
  | built buf =>
      dsimp only at htrim hclean
      split at htrim
      · obtain rfl := Except.ok.inj htrim
        exact zero_notMem_check hclean hret
      · unfold trim at htrim
        split at htrim
        · cases htrim
        · obtain rfl := Except.ok.inj htrim
          exact zero_notMem_check (fun hmem => hclean ((List.dropLast_sublist buf).subset hmem)) hret

/-- An error exit after the word was first cut returns what was before the cut. -/
theorem convertLoop_failed_of_cut {glib : Glib} (hsized : glib.Sized) {size fuel : ℕ} {st : Strtok}
    {buf : Bytes} (hroom : HasRoom size st buf) (hfuel : st.rest.length < fuel)
    (hcut : 0 ∈ st.passed)
    (herror : ∃ w ∈ Strtok.tokens isQuestion st.rest, convertSegment glib w = none) :
    convertLoop glib size fuel st buf = .ok (.failed st.held) := by
  induction fuel generalizing st buf with
  | zero => exact absurd hfuel (Nat.not_lt_zero _)
  | succ fuel ih =>
      cases hnext : st.next isQuestion with
      | none =>
          obtain ⟨w, hw, -⟩ := herror
          rw [Strtok.tokens_of_next_eq_none hnext] at hw
          cases hw
      | some found =>
          obtain ⟨w, st'⟩ := found
          obtain ⟨hcut', hheld⟩ := Strtok.held_of_next hnext hcut
          obtain ⟨hne, hshorter⟩ := Strtok.length_of_next hnext
          have hpos : 0 < w.length := List.length_pos_iff.mpr hne
          rw [Strtok.tokens_of_next hnext] at herror
          cases hans : convertSegment glib w with
          | none =>
              rw [convertLoop, hnext]
              simp only [hans, hheld]
          | some ans =>
              obtain ⟨hroom', hstep⟩ :=
                convertLoop_step fuel hroom hnext hans (convertSegment_length hsized hans)
              have herror' : ∃ w ∈ Strtok.tokens isQuestion st'.rest,
                  convertSegment glib w = none := by
                simpa [hans] using herror
              rw [hstep, ih hroom' (by omega) hcut' herror', hheld]

/-- An error exit returns what the first call of `strtok` leaves of the word. -/
theorem convertLoop_failed {glib : Glib} (hsized : glib.Sized) {word : Bytes} (hzero : 0 ∉ word)
    (herror : ∃ w ∈ Strtok.tokens isQuestion word, convertSegment glib w = none) :
    ∃ w st', (Strtok.start word).next isQuestion = some (w, st') ∧
      convertLoop glib (10 * word.length) (word.length + 1) (Strtok.start word) [] =
        .ok (.failed st'.held) := by
  have hstart : (Strtok.start word).rest = word := cstr_eq_self hzero
  rw [← hstart] at herror
  cases hnext : (Strtok.start word).next isQuestion with
  | none =>
      obtain ⟨w, hw, -⟩ := herror
      rw [Strtok.tokens_of_next_eq_none hnext] at hw
      cases hw
  | some found =>
      obtain ⟨w, st'⟩ := found
      refine ⟨w, st', rfl, ?_⟩
      rw [Strtok.tokens_of_next hnext] at herror
      cases hans : convertSegment glib w with
      | none =>
          rw [convertLoop, hnext]
          simp only [hans]
      | some ans =>
          obtain ⟨hroom', hstep⟩ := convertLoop_step word.length (hasRoom_start word) hnext hans
            (convertSegment_length hsized hans)
          obtain ⟨hne, hshorter⟩ := Strtok.length_of_next hnext
          have hpos : 0 < w.length := List.length_pos_iff.mpr hne
          rw [hstart] at hshorter
          have herror' : ∃ w ∈ Strtok.tokens isQuestion st'.rest,
              convertSegment glib w = none := by
            simpa [hans] using herror
          have hmore : st'.rest ≠ [] := by
            intro hnil
            obtain ⟨w', hw', -⟩ := herror'
            rw [hnil] at hw'
            cases hw'
          have hcut := (Strtok.held_of_first_next hzero hnext).2 hmore
          rw [hstep]
          exact convertLoop_failed_of_cut hsized hroom' (by omega) hcut herror'

/-- An error exit returns the word up to the first `?` that has another byte
before it. -/
theorem convertWord_failed {glib : Glib} (hsized : glib.Sized) {word : Bytes} (hzero : 0 ∉ word)
    (flag : Bool)
    (herror : ∃ w ∈ Strtok.tokens isQuestion word, convertSegment glib w = none) :
    ∃ held, convertWord glib word flag = .ok (.failed held) ∧
      (held = word ↔ 63 ∉ word.dropWhile isQuestion) := by
  obtain ⟨w, st', hnext, hloop⟩ := convertLoop_failed hsized hzero herror
  refine ⟨st'.held, ?_, ?_⟩
  · simp only [convertWord, hloop, bind, Except.bind]
  · rw [(Strtok.held_of_first_next hzero hnext).1]
    constructor
    · exact fun hall hmem => absurd (hall 63 hmem) (by decide)
    · intro hmem b hb
      have hne : b ≠ 63 := fun heq => hmem (heq ▸ hb)
      simpa [isQuestion] using hne

end SearchTools.Conv2
