/-
# Reading characters

`get_utf8` and the groupings of the Snowball runtime: they stay within the limits on
any bytes, and on a text of characters of at most three bytes they read exactly
these. A character of four bytes is read as one of three and a rest.
-/

import Mathlib.Data.Nat.Bitwise
import SearchTools.Library.Coding
import SearchTools.Stemmer2.Snowball

namespace SearchTools.Stemmer2

open SearchTools.Library SnEnv

variable {z : SnEnv} {s : List UInt8} {min max : ℕ} {inside : Bool}

/-- What follows the first character with a property. -/
def past (p : Char → Bool) (word : List Char) : Option (List Char) :=
  (word.dropWhile fun ch => !p ch).tail?

namespace SnEnv

theorem symbol_of_lt {i : ℕ} (h : i < z.p.length) : z.symbol i = .ok z.p[i] := by
  rw [symbol, List.getElem?_eq_getElem h]

/-! ## Any bytes -/

/-- A read at the limit gives nothing, and any other read a width within it. -/
theorem getUtf8_total {c l : ℕ} (hl : l ≤ z.p.length) :
    ∃ w ch, z.getUtf8 c l = .ok (w, ch) ∧ (w = 0 ↔ l ≤ c) ∧ (c ≤ l → c + w ≤ l) := by
  unfold getUtf8
  by_cases hend : l ≤ c
  · exact ⟨0, 0, by rw [if_pos hend]; rfl, by simp [hend], fun h => h⟩
  rw [if_neg hend, symbol_of_lt (by omega), ok_bind]
  by_cases hone : z.p[c].toNat < 0xC0 ∨ c + 1 = l
  · exact ⟨1, _, if_pos hone, by simpa using hend, fun _ => by omega⟩
  rw [if_neg hone, symbol_of_lt (by omega), ok_bind]
  by_cases htwo : z.p[c].toNat < 0xE0 ∨ c + 2 = l
  · exact ⟨2, _, if_pos htwo, by simpa using hend, fun _ => by omega⟩
  rw [if_neg htwo, symbol_of_lt (by omega), ok_bind]
  exact ⟨3, _, rfl, by simpa using hend, fun _ => by omega⟩

/-- The bits of a grouping cover the characters from `min` to `max`. -/
def Covers (s : List UInt8) (min max : ℕ) : Prop := (max - min) >>> 3 < s.length

/-- Whether a character is in a grouping. -/
def bitOf (s : List UInt8) (min max ch : ℕ) : Bool :=
  decide (min ≤ ch ∧ ch ≤ max) && (s.getD ((ch - min) >>> 3) 0).toNat.testBit ((ch - min) &&& 7)

theorem inSet_eq (hs : Covers s min max) (ch : ℕ) : inSet s min max ch = .ok (bitOf s min max ch) := by
  unfold inSet bitOf
  split_ifs with hout
  · have hnot : ¬ (min ≤ ch ∧ ch ≤ max) := by omega
    simp [hnot]
  · have hin : min ≤ ch ∧ ch ≤ max := by omega
    have hlt : (ch - min) >>> 3 < s.length := by
      refine Nat.lt_of_le_of_lt ?_ hs
      rw [Nat.shiftRight_eq_div_pow, Nat.shiftRight_eq_div_pow]
      exact Nat.div_le_div_right (by omega)
    simp [hin, hlt]

/-- A grouping passes over characters within the limit and comes to an end. -/
theorem groupingU_total (hs : Covers s min max) (rep : Bool) {fuel : ℕ} (hl : z.l ≤ z.p.length)
    (hc : z.c ≤ z.l) (hfuel : z.l - z.c < fuel) :
    ∃ ret c, groupingU s min max inside rep fuel z = .ok (ret, { z with c := c }) ∧
      z.c ≤ c ∧ c ≤ z.l ∧ (0 ≤ ret → c + ret.toNat ≤ z.l) := by
  induction fuel generalizing z with
  | zero => omega
  | succ fuel ih =>
      obtain ⟨w, ch, hget, hzero, hwithin⟩ := @getUtf8_total z z.c z.l hl
      rw [groupingU, hget, ok_bind]
      dsimp only
      by_cases hw : w = 0
      · rw [if_pos hw]
        exact ⟨-1, z.c, rfl, Nat.le_refl _, hc, fun h => absurd h (by decide)⟩
      have hw' := hwithin hc
      rw [if_neg hw, inSet_eq hs, ok_bind]
      by_cases hend : bitOf s min max ch ≠ inside
      · rw [if_pos hend]
        exact ⟨w, z.c, rfl, Nat.le_refl _, hc, fun _ => by simpa using hw'⟩
      rw [if_neg hend]
      cases rep with
      | true =>
          obtain ⟨ret, c, hrun, hle, hcl, hret⟩ := @ih { z with c := z.c + w } hl hw' (by
            dsimp only
            omega)
          exact ⟨ret, c, hrun, (Nat.le_add_right _ _).trans hle, hcl, hret⟩
      | false => exact ⟨0, z.c + w, rfl, Nat.le_add_right _ _, hw', fun _ => by simpa using hw'⟩

/-- A search for a character does not leave the word. -/
theorem gopast_total (hs : Covers s min max) (hl : z.l ≤ z.p.length) (hc : z.c ≤ z.l) :
    ∃ c ≤ z.l, gopast s min max inside z = .ok (0, { z with c := c }) ∨
      gopast s min max inside z = .ok (1, { z with c := c }) := by
  obtain ⟨ret, c, hrun, -, hcl, hret⟩ :=
    @groupingU_total z s min max inside hs true (z.l - z.c + 1) hl hc (by omega)
  rw [gopast, hrun, ok_bind]
  by_cases hneg : ret < 0
  · exact ⟨c, hcl, Or.inl (if_pos hneg)⟩
  · exact ⟨c + ret.toNat, hret (Int.not_lt.mp hneg), Or.inr (if_neg hneg)⟩

/-! ## Other buffers

What is read depends on the symbols before the limit only. -/

/-- The same word with the cursor at the same place. -/
structure Agrees (z z' : SnEnv) : Prop where
  c : z'.c = z.c
  l : z'.l = z.l
  symbol : ∀ i < z.l, z'.symbol i = z.symbol i

variable {z' : SnEnv}

theorem Agrees.getUtf8_eq (h : Agrees z z') {c : ℕ} : z'.getUtf8 c z.l = z.getUtf8 c z.l := by
  unfold getUtf8
  by_cases hend : z.l ≤ c
  · rw [if_pos hend, if_pos hend]
  rw [if_neg hend, if_neg hend, h.symbol c (by omega)]
  cases z.symbol c with
  | error fault => rfl
  | ok b0 =>
      rw [ok_bind, ok_bind]
      by_cases hone : b0.toNat < 0xC0 ∨ c + 1 = z.l
      · rw [if_pos hone, if_pos hone]
      rw [if_neg hone, if_neg hone, h.symbol (c + 1) (by omega)]
      cases z.symbol (c + 1) with
      | error fault => rfl
      | ok b1 =>
          rw [ok_bind, ok_bind]
          by_cases htwo : b0.toNat < 0xE0 ∨ c + 2 = z.l
          · rw [if_pos htwo, if_pos htwo]
          · rw [if_neg htwo, if_neg htwo, h.symbol (c + 2) (by omega)]

theorem Agrees.groupingU_eq (rep : Bool) {fuel : ℕ} (h : Agrees z z') :
    groupingU s min max inside rep fuel z' =
      (groupingU s min max inside rep fuel z).map fun r => (r.1, { z' with c := r.2.c }) := by
  induction fuel generalizing z z' with
  | zero => rfl
  | succ fuel ih =>
      have hz' : z' = { z' with c := z.c } := by rw [← h.c]
      have hget : z'.getUtf8 z'.c z'.l = z.getUtf8 z.c z.l := by rw [h.c, h.l, h.getUtf8_eq]
      rw [groupingU, groupingU, hget]
      cases z.getUtf8 z.c z.l with
      | error fault => rfl
      | ok char =>
          rw [ok_bind, ok_bind]
          dsimp only
          by_cases hw : char.1 = 0
          · rw [if_pos hw, if_pos hw]
            exact congrArg (fun z => Except.ok ((-1 : ℤ), z)) hz'
          rw [if_neg hw, if_neg hw]
          cases inSet s min max char.2 with
          | error fault => rfl
          | ok found =>
              rw [ok_bind, ok_bind]
              by_cases hend : found ≠ inside
              · rw [if_pos hend, if_pos hend]
                exact congrArg (fun z => Except.ok ((char.1 : ℤ), z)) hz'
              · rw [if_neg hend, if_neg hend]
                cases rep with
                | true => exact ih ⟨congrArg (· + char.1) h.c, h.l, h.symbol⟩
                | false => exact congrArg (fun c => Except.ok ((0 : ℤ), { z' with c := c + char.1 })) h.c

theorem Agrees.gopast_eq (h : Agrees z z') :
    gopast s min max inside z' =
      (gopast s min max inside z).map fun r => (r.1, { z' with c := r.2.c }) := by
  have hfuel : z'.l - z'.c + 1 = z.l - z.c + 1 := by rw [h.c, h.l]
  rw [gopast, gopast, hfuel, h.groupingU_eq true]
  cases groupingU s min max inside true (z.l - z.c + 1) z with
  | error fault => rfl
  | ok r =>
      rw [ok_bind]
      dsimp only [Except.map]
      rw [ok_bind]
      by_cases hneg : r.1 < 0
      · rw [if_pos hneg, if_pos hneg]
        rfl
      · rw [if_neg hneg, if_neg hneg]
        rfl

/-- A search for a character ends alike in all buffers with the same word. -/
theorem gopast_agrees (hs : Covers s min max) (hl : z.l ≤ z.p.length) (hc : z.c ≤ z.l) :
    ∃ c ≤ z.l,
      (∀ z', Agrees z z' → gopast s min max inside z' = .ok (0, { z' with c := c })) ∨
      ∀ z', Agrees z z' → gopast s min max inside z' = .ok (1, { z' with c := c }) := by
  obtain ⟨c, hcl, hrun | hrun⟩ := @gopast_total z s min max inside hs hl hc
  · exact ⟨c, hcl, Or.inl fun z' h => by rw [h.gopast_eq, hrun]; rfl⟩
  · exact ⟨c, hcl, Or.inr fun z' h => by rw [h.gopast_eq, hrun]; rfl⟩

/-- The buffer holds a word and one symbol more. -/
structure Contains (w : Bytes) (z : SnEnv) : Prop where
  p : ∃ junk, z.p = w ++ [junk]
  l : z.l = w.length

variable {w : Bytes}

theorem Contains.unique {w' : Bytes} (h : Contains w z) (h' : Contains w' z) : w = w' := by
  obtain ⟨junk, hp⟩ := h.p
  obtain ⟨junk', hp'⟩ := h'.p
  exact List.append_inj_left (hp.symm.trans hp') (h.l.symm.trans h'.l)

theorem Contains.le_length (h : Contains w z) : z.l ≤ z.p.length := by
  obtain ⟨junk, hp⟩ := h.p
  rw [hp, h.l, List.length_append]
  exact Nat.le_add_right _ _

/-- A buffer with the word and the cursor before it. -/
def holding (w : Bytes) : SnEnv := { create 0 with p := w ++ [0], l := w.length }

theorem contains_holding (w : Bytes) : Contains w (holding w) := ⟨⟨0, rfl⟩, rfl⟩

theorem Contains.agrees (h : Contains w z) (hc : z.c = 0) : Agrees (holding w) z := by
  obtain ⟨junk, hp⟩ := h.p
  refine ⟨hc, h.l, fun i hi => ?_⟩
  have hi' : i < w.length := hi
  rw [symbol, symbol, hp, holding, List.getElem?_append_left hi', List.getElem?_append_left hi']

/-! ## Texts -/

theorem and_fifteen (n : ℕ) : n &&& 0xF = n % 16 := Nat.and_two_pow_sub_one_eq_mod n 4

theorem and_thirtyOne (n : ℕ) : n &&& 0x1F = n % 32 := Nat.and_two_pow_sub_one_eq_mod n 5

theorem and_sixtyThree (n : ℕ) : n &&& 0x3F = n % 64 := Nat.and_two_pow_sub_one_eq_mod n 6

/-- Bits put before others. -/
theorem shiftLeft_or (a : ℕ) {b k : ℕ} (hb : b < 2 ^ k) : a <<< k ||| b = a * 2 ^ k + b := by
  rw [← Nat.shiftLeft_add_eq_or_of_lt hb, Nat.shiftLeft_eq]

theorem getUtf8_one {c l : ℕ} {b0 : UInt8} (hl : c + 1 ≤ l) (h0 : z.symbol c = .ok b0)
    (hb0 : b0.toNat < 0xC0) : z.getUtf8 c l = .ok (1, b0.toNat) := by
  rw [getUtf8, if_neg (by omega), h0, ok_bind, if_pos (Or.inl hb0)]
  rfl

theorem getUtf8_two {c l : ℕ} {b0 b1 : UInt8} (hl : c + 2 ≤ l) (h0 : z.symbol c = .ok b0)
    (h1 : z.symbol (c + 1) = .ok b1) (hb0 : 0xC0 ≤ b0.toNat ∧ b0.toNat < 0xE0) :
    z.getUtf8 c l = .ok (2, b0.toNat % 32 * 64 + b1.toNat % 64) := by
  rw [getUtf8, if_neg (by omega), h0, ok_bind, if_neg (by omega), h1, ok_bind,
    if_pos (Or.inl hb0.2), and_thirtyOne, and_sixtyThree,
    shiftLeft_or _ (Nat.mod_lt _ (by decide) : b1.toNat % 64 < 2 ^ 6)]
  rfl

theorem getUtf8_three {c l : ℕ} {b0 b1 b2 : UInt8} (hl : c + 3 ≤ l) (h0 : z.symbol c = .ok b0)
    (h1 : z.symbol (c + 1) = .ok b1) (h2 : z.symbol (c + 2) = .ok b2) (hb0 : 0xE0 ≤ b0.toNat) :
    z.getUtf8 c l = .ok (3, b0.toNat % 16 * 4096 + (b1.toNat % 64 * 64 + b2.toNat % 64)) := by
  have hlast : b2.toNat % 64 < 2 ^ 6 := Nat.mod_lt _ (by decide)
  have htail : b1.toNat % 64 * 2 ^ 6 + b2.toNat % 64 < 2 ^ 12 := by omega
  rw [getUtf8, if_neg (by omega), h0, ok_bind, if_neg (by omega), h1, ok_bind,
    if_neg (by omega), h2, ok_bind, and_fifteen, and_sixtyThree, and_sixtyThree, Nat.or_assoc,
    shiftLeft_or _ hlast, shiftLeft_or _ htail]
  rfl

/-- Before the limit a character of at most three bytes is read as it is. -/
theorem getUtf8_char {pre rest : Bytes} {ch : Char} {l : ℕ} (hch : ch.utf8Size ≤ 3)
    (hp : z.p.take l = pre ++ (String.utf8EncodeChar ch ++ rest)) (hl : l ≤ z.p.length) :
    z.getUtf8 pre.length l = .ok (ch.utf8Size, ch.val.toNat) := by
  have hlen := congrArg List.length hp
  rw [List.length_take, Nat.min_eq_left hl, List.length_append, List.length_append] at hlen
  have hsym : ∀ i b, (String.utf8EncodeChar ch)[i]? = some b →
      z.symbol (pre.length + i) = .ok b := by
    intro i b hb
    have hi := (List.getElem?_eq_some_iff.mp hb).1
    have htake : (z.p.take l)[pre.length + i]? = some b := by
      rw [hp, List.getElem?_append_right (Nat.le_add_right _ _), Nat.add_sub_cancel_left,
        List.getElem?_append_left hi, hb]
    rw [List.getElem?_take_of_lt (by omega)] at htake
    exact symbol_eq htake
  rw [← String.length_utf8EncodeChar] at hch ⊢
  generalize hv : ch.val.toNat = v
  by_cases hone : v ≤ 0x7f
  · have hencode : String.utf8EncodeChar ch = [UInt8.ofNat v] := by
      simp [String.utf8EncodeChar, hv, hone]
    rw [hencode] at hsym hlen ⊢
    have hread := @getUtf8_one z pre.length l _ (by simp at hlen; omega) (hsym 0 _ rfl)
    simp only [UInt8.toNat_ofNat'] at hread
    rw [hread (by omega), Nat.mod_eq_of_lt (by omega : v < 2 ^ 8)]
    rfl
  by_cases htwo : v ≤ 0x7ff
  · have hencode : String.utf8EncodeChar ch =
        [UInt8.ofNat (v / 64 % 32 + 0xc0), UInt8.ofNat (v % 64 + 0x80)] := by
      simp [String.utf8EncodeChar, hv, hone, htwo]
    rw [hencode] at hsym hlen ⊢
    have hread := @getUtf8_two z pre.length l _ _ (by simp at hlen; omega) (hsym 0 _ rfl)
      (hsym 1 _ rfl)
    simp only [UInt8.toNat_ofNat'] at hread
    rw [hread (by omega)]
    exact congrArg (fun n => Except.ok (2, n)) (by omega)
  by_cases hthree : v ≤ 0xffff
  · have hencode : String.utf8EncodeChar ch = [UInt8.ofNat (v / 4096 % 16 + 0xe0),
        UInt8.ofNat (v / 64 % 64 + 0x80), UInt8.ofNat (v % 64 + 0x80)] := by
      simp [String.utf8EncodeChar, hv, hone, htwo, hthree]
    rw [hencode] at hsym hlen ⊢
    have hread := @getUtf8_three z pre.length l _ _ _ (by simp at hlen; omega) (hsym 0 _ rfl)
      (hsym 1 _ rfl) (hsym 2 _ rfl)
    simp only [UInt8.toNat_ofNat'] at hread
    rw [hread (by omega)]
    exact congrArg (fun n => Except.ok (3, n)) (by omega)
  · have hfour : (String.utf8EncodeChar ch).length = 4 := by
      simp [String.utf8EncodeChar, hv, hone, htwo, hthree]
    omega

/-- A grouping on a text stops before the first character that is not in it, or is. -/
theorem groupingU_text (hs : Covers s min max) {fuel : ℕ} {pre : Bytes} {text : List Char}
    (htext : ∀ ch ∈ text, ch.utf8Size ≤ 3) (hp : z.p.take z.l = pre ++ utf8 text)
    (hl : z.l ≤ z.p.length) (hc : z.c = pre.length) (hfuel : z.l - z.c < fuel) :
    groupingU s min max inside true fuel z =
      .ok (match text.dropWhile (fun ch => bitOf s min max ch.val.toNat == inside) with
        | [] => (-1, { z with c := z.l })
        | ch :: rest => (ch.utf8Size, { z with c := z.l - (utf8 (ch :: rest)).length })) := by
  induction fuel generalizing z pre text with
  | zero => omega
  | succ fuel ih =>
      have hlen := congrArg List.length hp
      rw [List.length_take, Nat.min_eq_left hl, List.length_append] at hlen
      cases text with
      | nil =>
          have hend : z.c = z.l := by
            rw [hc, hlen]
            simp [utf8]
          have hget : z.getUtf8 z.c z.l = .ok (0, 0) := if_pos hend.ge
          rw [groupingU, hget, ok_bind, List.dropWhile_nil]
          dsimp only
          rw [if_pos rfl]
          exact congrArg (fun c => Except.ok ((-1 : ℤ), { z with c := c })) hend
      | cons ch text =>
          have hpos := ch.utf8Size_pos
          rw [utf8_cons] at hp hlen
          rw [List.length_append, String.length_utf8EncodeChar] at hlen
          rw [groupingU, hc, getUtf8_char (htext ch List.mem_cons_self) hp hl, ok_bind]
          dsimp only
          rw [if_neg hpos.ne', inSet_eq hs, ok_bind]
          by_cases hin : bitOf s min max ch.val.toNat = inside
          · have hp' : z.p.take z.l = (pre ++ String.utf8EncodeChar ch) ++ utf8 text := by
              rw [hp, List.append_assoc]
            have hnext := @ih { z with c := pre.length + ch.utf8Size }
              (pre ++ String.utf8EncodeChar ch) text
              (fun d hd => htext d (List.mem_cons_of_mem _ hd)) hp' hl
              (by rw [List.length_append, String.length_utf8EncodeChar])
              (by dsimp only; omega)
            rw [if_neg (fun hne => hne hin), if_pos rfl, hnext,
              List.dropWhile_cons_of_pos (by simpa using hin)]
          · rw [if_pos hin, List.dropWhile_cons_of_neg (by simpa using hin)]
            have hstop : z.l - (utf8 (ch :: text)).length = z.c := by
              rw [utf8_cons, List.length_append, String.length_utf8EncodeChar]
              omega
            simp only [hstop]
            rfl

/-- The cursor stands before a text that reaches to the limit. -/
structure At (text : List Char) (z : SnEnv) : Prop where
  suffix : utf8 text <:+ z.p.take z.l
  c : z.c + (utf8 text).length = z.l
  l : z.l ≤ z.p.length

variable {text rest : List Char}

theorem At.of_suffix (h : At text z) (hrest : rest <:+ text) {c : ℕ}
    (hc : c + (utf8 rest).length = z.l) : At rest { z with c := c } :=
  ⟨(Coding.utf8.suffix_iff.mpr hrest).trans h.suffix, hc, h.l⟩

/-- On a text a search for a character goes behind the first one. -/
theorem At.gopast_eq (hs : Covers s min max) {p : Char → Bool}
    (hp : ∀ ch : Char, (bitOf s min max ch.val.toNat == inside) = !p ch) (h : At text z)
    (htext : ∀ ch ∈ text, ch.utf8Size ≤ 3) :
    (past p text = none ∧ ∃ c, gopast s min max inside z = .ok (0, { z with c := c })) ∨
    ∃ rest ∈ past p text, rest <:+ text ∧
      ∃ c, gopast s min max inside z = .ok (1, { z with c := c }) ∧ At rest { z with c := c } := by
  obtain ⟨pre, hpre⟩ := h.suffix
  have hcl := h.c
  have hlen := congrArg List.length hpre
  rw [List.length_append, List.length_take, Nat.min_eq_left h.l] at hlen
  have hrun := @groupingU_text z s min max inside hs (z.l - z.c + 1) pre text htext hpre.symm h.l
    (by omega) (by omega)
  rw [gopast, hrun, past]
  simp only [hp]
  cases hdrop : text.dropWhile fun ch => !p ch with
  | nil => exact Or.inl ⟨rfl, z.l, rfl⟩
  | cons ch rest =>
      have hsuffix : ch :: rest <:+ text := hdrop ▸ List.dropWhile_suffix _
      have hrest := (List.suffix_cons ch rest).trans hsuffix
      have hle := (Coding.utf8.suffix_iff.mpr hsuffix).length_le
      have hnonneg : ¬ (ch.utf8Size : ℤ) < 0 := Int.not_lt.mpr (Int.natCast_nonneg _)
      refine Or.inr ⟨rest, rfl, hrest, z.l - (utf8 (ch :: rest)).length + ch.utf8Size, ?_,
        h.of_suffix hrest ?_⟩
      · rw [ok_bind]
        exact if_neg hnonneg
      · rw [utf8_cons, List.length_append, String.length_utf8EncodeChar] at hle ⊢
        omega

end SnEnv

end SearchTools.Stemmer2
