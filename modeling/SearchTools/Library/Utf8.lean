/-
# UTF-8

Texts as lists of characters against their encodings. A decoder reads whole
characters from the left and stops where none is left: at the end, at the
beginning of a character that the string does not finish, or at an ill-formed
sequence.
-/

import Mathlib.Tactic.SplitIfs
import SearchTools.Library.Memory

namespace SearchTools.Library

/-- The UTF-8 encoding of a text. -/
def utf8 (text : List Char) : Bytes := text.flatMap String.utf8EncodeChar

theorem utf8_cons (c : Char) (text : List Char) :
    utf8 (c :: text) = String.utf8EncodeChar c ++ utf8 text := rfl

theorem utf8_append (text text' : List Char) :
    utf8 (text ++ text') = utf8 text ++ utf8 text' := List.flatMap_append

/-- A character takes at least one byte. -/
theorem length_le_length_utf8 (text : List Char) : text.length ≤ (utf8 text).length := by
  induction text with
  | nil => exact Nat.le_refl 0
  | cons c text ih =>
      have hpos := c.utf8Size_pos
      simp only [utf8_cons, List.length_cons, List.length_append, String.length_utf8EncodeChar]
      omega

/-- The first character of a string and what follows it. -/
def utf8Next (s : Bytes) : Option (Char × Bytes) :=
  (s.toByteArray.utf8DecodeChar? 0).map fun c => (c, s.drop c.utf8Size)

theorem utf8Next_eq_some_iff {s : Bytes} {c : Char} {rest : Bytes} :
    utf8Next s = some (c, rest) ↔ s = String.utf8EncodeChar c ++ rest := by
  constructor
  · intro h
    obtain ⟨c', hc', heq⟩ := Option.map_eq_some_iff.mp h
    obtain ⟨rfl, rfl⟩ := Prod.mk.inj heq
    obtain ⟨rest, hrest⟩ := ByteArray.exists_of_utf8DecodeChar?_eq_some hc'
    have hs : s = String.utf8EncodeChar c' ++ rest.data.toList := by
      simpa using congrArg (fun b => b.data.toList) hrest
    rw [hs, ← String.length_utf8EncodeChar, List.drop_left]
  · rintro rfl
    have hdecode : (String.utf8EncodeChar c ++ rest).toByteArray.utf8DecodeChar? 0 = some c := by
      rw [List.toByteArray_append]
      exact ByteArray.utf8DecodeChar?_utf8EncodeChar_append
    rw [utf8Next, hdecode, Option.map_some, ← String.length_utf8EncodeChar, List.drop_left]

/-- No encoding starts another one, so the first characters of equal strings agree. -/
theorem utf8EncodeChar_append_inj {c c' : Char} {rest rest' : Bytes}
    (h : String.utf8EncodeChar c ++ rest = String.utf8EncodeChar c' ++ rest') :
    c = c' ∧ rest = rest' := by
  have hnext := utf8Next_eq_some_iff.mpr (Eq.refl (String.utf8EncodeChar c ++ rest))
  rw [utf8Next_eq_some_iff.mpr h] at hnext
  simpa [eq_comm] using hnext

/-! ## Unfinished characters -/

/-- The beginning of a character, and not the whole of it. -/
def IsIncomplete (tail : Bytes) : Prop :=
  ∃ c : Char, tail <+: String.utf8EncodeChar c ∧ tail ≠ String.utf8EncodeChar c

/-- No character starts at an unfinished one. -/
theorem IsIncomplete.ne_append {tail : Bytes} (h : IsIncomplete tail) (c : Char) (rest : Bytes) :
    tail ≠ String.utf8EncodeChar c ++ rest := by
  rintro rfl
  obtain ⟨c', ⟨more, hmore⟩, hne⟩ := h
  have heq : String.utf8EncodeChar c ++ (rest ++ more) = String.utf8EncodeChar c' ++ [] := by
    rw [← List.append_assoc, hmore, List.append_nil]
  obtain ⟨rfl, hnil⟩ := utf8EncodeChar_append_inj heq
  exact hne (by rw [(List.append_eq_nil_iff.mp hnil).1, List.append_nil])

/-- The second bytes that can follow a first byte of three or four. -/
def isSecond (a b : UInt8) : Bool :=
  if a = 0xE0 then 0xA0 ≤ b && b ≤ 0xBF
  else if a = 0xED then 0x80 ≤ b && b ≤ 0x9F
  else if a = 0xF0 then 0x90 ≤ b && b ≤ 0xBF
  else if a = 0xF4 then 0x80 ≤ b && b ≤ 0x8F
  else 0x80 ≤ b && b ≤ 0xBF

/-- Whether a string is an unfinished character. -/
def isIncomplete : Bytes → Bool
  | [] => true
  | [a] => 0xC2 ≤ a && a ≤ 0xF4
  | [a, b] => 0xE0 ≤ a && a ≤ 0xF4 && isSecond a b
  | [a, b, c] => 0xF0 ≤ a && a ≤ 0xF4 && isSecond a b && 0x80 ≤ c && c ≤ 0xBF
  | _ => false

theorem isSecond_iff {a b : UInt8} : isSecond a b ↔
    (0x80 ≤ b.toNat ∧ b.toNat ≤ 0xBF) ∧ (a.toNat = 0xE0 → 0xA0 ≤ b.toNat) ∧
      (a.toNat = 0xED → b.toNat ≤ 0x9F) ∧ (a.toNat = 0xF0 → 0x90 ≤ b.toNat) ∧
      (a.toNat = 0xF4 → b.toNat ≤ 0x8F) := by
  simp only [isSecond, ← UInt8.toNat_inj, UInt8.reduceToNat]
  split_ifs <;> simp only [Bool.and_eq_true, decide_eq_true_eq, UInt8.le_iff_toNat_le,
    UInt8.reduceToNat] <;> omega

/-- Every scalar value is a character. -/
theorem exists_char {v : ℕ} (hv : v < 0xD800 ∨ 0xDFFF < v ∧ v < 0x110000) :
    ∃ c : Char, c.val.toNat = v :=
  ⟨⟨⟨v, by omega⟩, hv⟩, rfl⟩

theorem exists_utf8EncodeChar_two {a b : UInt8} (ha : 0xC2 ≤ a.toNat ∧ a.toNat ≤ 0xDF)
    (hb : 0x80 ≤ b.toNat ∧ b.toNat ≤ 0xBF) : ∃ c, String.utf8EncodeChar c = [a, b] := by
  obtain ⟨c, hc⟩ := @exists_char ((a.toNat - 0xC0) * 64 + (b.toNat - 0x80)) (by omega)
  refine ⟨c, ?_⟩
  have hlow : ¬ c.val.toNat ≤ 0x7f := by omega
  have hhigh : c.val.toNat ≤ 0x7ff := by omega
  simp only [String.utf8EncodeChar, if_neg hlow, if_pos hhigh, List.cons.injEq, and_true,
    ← UInt8.toNat_inj, UInt8.toNat_ofNat']
  omega

theorem exists_utf8EncodeChar_three {a b d : UInt8} (ha : 0xE0 ≤ a.toNat ∧ a.toNat ≤ 0xEF)
    (hb : isSecond a b) (hd : 0x80 ≤ d.toNat ∧ d.toNat ≤ 0xBF) :
    ∃ c, String.utf8EncodeChar c = [a, b, d] := by
  rw [isSecond_iff] at hb
  obtain ⟨c, hc⟩ := @exists_char
    ((a.toNat - 0xE0) * 4096 + (b.toNat - 0x80) * 64 + (d.toNat - 0x80)) (by omega)
  refine ⟨c, ?_⟩
  have hlow : ¬ c.val.toNat ≤ 0x7f := by omega
  have hmid : ¬ c.val.toNat ≤ 0x7ff := by omega
  have hhigh : c.val.toNat ≤ 0xffff := by omega
  simp only [String.utf8EncodeChar, if_neg hlow, if_neg hmid, if_pos hhigh, List.cons.injEq,
    and_true, ← UInt8.toNat_inj, UInt8.toNat_ofNat']
  omega

theorem exists_utf8EncodeChar_four {a b d e : UInt8} (ha : 0xF0 ≤ a.toNat ∧ a.toNat ≤ 0xF4)
    (hb : isSecond a b) (hd : 0x80 ≤ d.toNat ∧ d.toNat ≤ 0xBF)
    (he : 0x80 ≤ e.toNat ∧ e.toNat ≤ 0xBF) : ∃ c, String.utf8EncodeChar c = [a, b, d, e] := by
  rw [isSecond_iff] at hb
  obtain ⟨c, hc⟩ := @exists_char ((a.toNat - 0xF0) * 262144 + (b.toNat - 0x80) * 4096 +
    (d.toNat - 0x80) * 64 + (e.toNat - 0x80)) (by omega)
  refine ⟨c, ?_⟩
  have hlow : ¬ c.val.toNat ≤ 0x7f := by omega
  have hmid : ¬ c.val.toNat ≤ 0x7ff := by omega
  have hhigh : ¬ c.val.toNat ≤ 0xffff := by omega
  simp only [String.utf8EncodeChar, if_neg hlow, if_neg hmid, if_neg hhigh, List.cons.injEq,
    and_true, ← UInt8.toNat_inj, UInt8.toNat_ofNat']
  omega

/-- The shapes of an encoding, one for each number of bytes. -/
theorem utf8EncodeChar_cases (c : Char) :
    (∃ a, String.utf8EncodeChar c = [a]) ∨
    (∃ a b, String.utf8EncodeChar c = [a, b] ∧ 0xC2 ≤ a.toNat ∧ a.toNat ≤ 0xDF) ∨
    (∃ a b d, String.utf8EncodeChar c = [a, b, d] ∧ (0xE0 ≤ a.toNat ∧ a.toNat ≤ 0xEF) ∧
      isSecond a b) ∨
    ∃ a b d e, String.utf8EncodeChar c = [a, b, d, e] ∧ (0xF0 ≤ a.toNat ∧ a.toNat ≤ 0xF4) ∧
      isSecond a b ∧ 0x80 ≤ d.toNat ∧ d.toNat ≤ 0xBF := by
  have hvalid : c.val.toNat < 0xD800 ∨ 0xDFFF < c.val.toNat ∧ c.val.toNat < 0x110000 := c.valid
  simp only [isSecond_iff]
  unfold String.utf8EncodeChar
  dsimp only
  split_ifs with hlow hmid hhigh
  · exact Or.inl ⟨_, rfl⟩
  · refine Or.inr (Or.inl ⟨_, _, rfl, ?_⟩)
    simp only [UInt8.toNat_ofNat']
    omega
  · refine Or.inr (Or.inr (Or.inl ⟨_, _, _, rfl, ?_⟩))
    simp only [UInt8.toNat_ofNat']
    omega
  · refine Or.inr (Or.inr (Or.inr ⟨_, _, _, _, rfl, ?_⟩))
    simp only [UInt8.toNat_ofNat']
    omega

/-- Outside ASCII every byte of a character is. -/
theorem le_of_mem_utf8EncodeChar {c : Char} (hc : 2 ≤ c.utf8Size) {b : UInt8}
    (hb : b ∈ String.utf8EncodeChar c) : 0x80 ≤ b := by
  rw [← String.length_utf8EncodeChar] at hc
  simp only [UInt8.le_iff_toNat_le, UInt8.reduceToNat]
  unfold String.utf8EncodeChar at hc hb
  dsimp only at hc hb
  split_ifs at hc hb
  · exact absurd hc (Nat.not_succ_le_self 1)
  · simp only [List.mem_cons, List.not_mem_nil, or_false] at hb
    rcases hb with rfl | rfl <;> simp only [UInt8.toNat_ofNat'] <;> omega
  · simp only [List.mem_cons, List.not_mem_nil, or_false] at hb
    rcases hb with rfl | rfl | rfl <;> simp only [UInt8.toNat_ofNat'] <;> omega
  · simp only [List.mem_cons, List.not_mem_nil, or_false] at hb
    rcases hb with rfl | rfl | rfl | rfl <;> simp only [UInt8.toNat_ofNat'] <;> omega

/-- No byte of a character is above F4. -/
theorem mem_utf8EncodeChar_le {c : Char} {b : UInt8} (hb : b ∈ String.utf8EncodeChar c) :
    b ≤ 0xF4 := by
  have hvalid : c.val.toNat < 0xD800 ∨ 0xDFFF < c.val.toNat ∧ c.val.toNat < 0x110000 := c.valid
  simp only [UInt8.le_iff_toNat_le, UInt8.reduceToNat]
  unfold String.utf8EncodeChar at hb
  dsimp only at hb
  split_ifs at hb
  · rw [List.mem_singleton.mp hb, UInt8.toNat_ofNat']
    omega
  · simp only [List.mem_cons, List.not_mem_nil, or_false] at hb
    rcases hb with rfl | rfl <;> simp only [UInt8.toNat_ofNat'] <;> omega
  · simp only [List.mem_cons, List.not_mem_nil, or_false] at hb
    rcases hb with rfl | rfl | rfl <;> simp only [UInt8.toNat_ofNat'] <;> omega
  · simp only [List.mem_cons, List.not_mem_nil, or_false] at hb
    rcases hb with rfl | rfl | rfl | rfl <;> simp only [UInt8.toNat_ofNat'] <;> omega

/-- A character is one byte of ASCII, or its second byte is at most BF. -/
theorem utf8EncodeChar_second (c : Char) :
    (∃ a, String.utf8EncodeChar c = [a] ∧ a < 0x80) ∨
      ∃ a b rest, String.utf8EncodeChar c = a :: b :: rest ∧ b ≤ 0xBF := by
  unfold String.utf8EncodeChar
  dsimp only
  simp only [UInt8.lt_iff_toNat_lt, UInt8.le_iff_toNat_le, UInt8.reduceToNat]
  split_ifs with hlow hmid hhigh
  · refine Or.inl ⟨_, rfl, ?_⟩
    simp only [UInt8.toNat_ofNat']
    omega
  all_goals
    refine Or.inr ⟨_, _, _, rfl, ?_⟩
    simp only [UInt8.toNat_ofNat']
    omega

/-- A second byte that can follow any first one. -/
def anySecond (a : UInt8) : UInt8 := if a = 0xE0 then 0xA0 else if a = 0xF0 then 0x90 else 0x80

theorem isSecond_anySecond (a : UInt8) : isSecond a (anySecond a) := by
  rw [isSecond_iff]
  simp only [anySecond, ← UInt8.toNat_inj, UInt8.reduceToNat]
  split_ifs <;> simp only [UInt8.reduceToNat] <;> omega

theorem isIncomplete_of_prefix_one {tail : Bytes} {a : UInt8}
    (ha : 0xC2 ≤ a.toNat ∧ a.toNat ≤ 0xF4) (h : tail <+: [a]) : isIncomplete tail := by
  rcases (@List.prefix_concat_iff _ tail [] a).mp h with rfl | hnil
  · simpa [isIncomplete, UInt8.le_iff_toNat_le] using ha
  · rw [List.prefix_nil.mp hnil]
    rfl

theorem isIncomplete_of_prefix_two {tail : Bytes} {a b : UInt8}
    (ha : 0xE0 ≤ a.toNat ∧ a.toNat ≤ 0xF4) (hb : isSecond a b) (h : tail <+: [a, b]) :
    isIncomplete tail := by
  rcases (@List.prefix_concat_iff _ tail [a] b).mp h with rfl | hone
  · simpa [isIncomplete, UInt8.le_iff_toNat_le, hb] using ha
  · exact isIncomplete_of_prefix_one ⟨by omega, ha.2⟩ hone

theorem isIncomplete_of_prefix_three {tail : Bytes} {a b d : UInt8}
    (ha : 0xF0 ≤ a.toNat ∧ a.toNat ≤ 0xF4) (hb : isSecond a b)
    (hd : 0x80 ≤ d.toNat ∧ d.toNat ≤ 0xBF) (h : tail <+: [a, b, d]) : isIncomplete tail := by
  rcases (@List.prefix_concat_iff _ tail [a, b] d).mp h with rfl | htwo
  · simp only [List.cons_append, List.nil_append, isIncomplete, hb, Bool.and_true,
      Bool.and_eq_true, decide_eq_true_eq, UInt8.le_iff_toNat_le, UInt8.reduceToNat]
    exact ⟨⟨ha, hd.1⟩, hd.2⟩
  · exact isIncomplete_of_prefix_two ⟨by omega, ha.2⟩ hb htwo

theorem isIncomplete_iff {tail : Bytes} : isIncomplete tail ↔ IsIncomplete tail := by
  have hfill : 0x80 ≤ (0x80 : UInt8).toNat ∧ (0x80 : UInt8).toNat ≤ 0xBF := by decide
  constructor
  · intro h
    match tail with
    | [] => exact ⟨'a', List.nil_prefix, by decide⟩
    | [a] =>
        simp only [isIncomplete, Bool.and_eq_true, decide_eq_true_eq, UInt8.le_iff_toNat_le,
          UInt8.reduceToNat] at h
        rcases Nat.lt_or_ge a.toNat 0xE0 with htwo | hmore
        · obtain ⟨c, hc⟩ := exists_utf8EncodeChar_two ⟨h.1, by omega⟩ hfill
          exact ⟨c, by simp [hc], by simp [hc]⟩
        · rcases Nat.lt_or_ge a.toNat 0xF0 with hthree | hfour
          · obtain ⟨c, hc⟩ :=
              exists_utf8EncodeChar_three ⟨hmore, by omega⟩ (isSecond_anySecond a) hfill
            exact ⟨c, by simp [hc], by simp [hc]⟩
          · obtain ⟨c, hc⟩ :=
              exists_utf8EncodeChar_four ⟨hfour, h.2⟩ (isSecond_anySecond a) hfill hfill
            exact ⟨c, by simp [hc], by simp [hc]⟩
    | [a, b] =>
        simp only [isIncomplete, Bool.and_eq_true, decide_eq_true_eq, UInt8.le_iff_toNat_le,
          UInt8.reduceToNat] at h
        rcases Nat.lt_or_ge a.toNat 0xF0 with hthree | hfour
        · obtain ⟨c, hc⟩ := exists_utf8EncodeChar_three ⟨h.1.1, by omega⟩ h.2 hfill
          exact ⟨c, by simp [hc], by simp [hc]⟩
        · obtain ⟨c, hc⟩ := exists_utf8EncodeChar_four ⟨hfour, h.1.2⟩ h.2 hfill hfill
          exact ⟨c, by simp [hc], by simp [hc]⟩
    | [a, b, d] =>
        simp only [isIncomplete, Bool.and_eq_true, decide_eq_true_eq, UInt8.le_iff_toNat_le,
          UInt8.reduceToNat] at h
        obtain ⟨c, hc⟩ := exists_utf8EncodeChar_four h.1.1.1 h.1.1.2 ⟨h.1.2, h.2⟩ hfill
        exact ⟨c, by simp [hc], by simp [hc]⟩
    | _ :: _ :: _ :: _ :: _ => cases h
  · rintro ⟨c, hpre, hne⟩
    rcases utf8EncodeChar_cases c with ⟨a, hc⟩ | ⟨a, b, hc, ha⟩ | ⟨a, b, d, hc, ha, hb⟩ |
      ⟨a, b, d, e, hc, ha, hb, hd⟩ <;> rw [hc] at hpre hne
    · have hnil := ((@List.prefix_concat_iff _ tail [] a).mp hpre).resolve_left hne
      rw [List.prefix_nil.mp hnil]
      rfl
    · have hone := ((@List.prefix_concat_iff _ tail [a] b).mp hpre).resolve_left hne
      exact isIncomplete_of_prefix_one ⟨ha.1, by omega⟩ hone
    · have htwo := ((@List.prefix_concat_iff _ tail [a, b] d).mp hpre).resolve_left hne
      exact isIncomplete_of_prefix_two ⟨ha.1, by omega⟩ hb htwo
    · have hthree := ((@List.prefix_concat_iff _ tail [a, b, d] e).mp hpre).resolve_left hne
      exact isIncomplete_of_prefix_three ha hb hd hthree

/-! ## Reading a whole string -/

/-- Read characters while there are any. The rest must be unfinished. -/
def utf8ScanFuel : ℕ → Bytes → Option (List Char × Bytes)
  | 0, s => if isIncomplete s then some ([], s) else none
  | n + 1, s =>
      match utf8Next s with
      | some (c, rest) => (utf8ScanFuel n rest).map fun (text, tail) => (c :: text, tail)
      | none => if isIncomplete s then some ([], s) else none

/-- The text of a string and the unfinished character at its end; nothing for a
string with an ill-formed sequence. -/
def utf8Scan (s : Bytes) : Option (List Char × Bytes) := utf8ScanFuel s.length s

theorem utf8ScanFuel_append {n : ℕ} {text : List Char} {tail : Bytes} (htail : IsIncomplete tail)
    (hn : text.length ≤ n) : utf8ScanFuel n (utf8 text ++ tail) = some (text, tail) := by
  have hnone : utf8Next tail = none := by
    cases hnext : utf8Next tail with
    | none => rfl
    | some first =>
        obtain ⟨c, rest⟩ := first
        exact absurd (utf8Next_eq_some_iff.mp hnext) (htail.ne_append c rest)
  induction text generalizing n with
  | nil =>
      have hinc : isIncomplete (utf8 [] ++ tail) := isIncomplete_iff.mpr htail
      match n with
      | 0 => exact if_pos hinc
      | n + 1 =>
          rw [utf8ScanFuel, show utf8 [] ++ tail = tail from rfl, hnone]
          exact if_pos hinc
  | cons c text ih =>
      match n, hn with
      | n + 1, hn =>
          have hnext : utf8Next (utf8 (c :: text) ++ tail) = some (c, utf8 text ++ tail) := by
            rw [utf8Next_eq_some_iff, utf8_cons, List.append_assoc]
          rw [utf8ScanFuel, hnext]
          simp only [ih (Nat.le_of_succ_le_succ hn), Option.map_some]

theorem eq_append_of_utf8ScanFuel {n : ℕ} {s tail : Bytes} {text : List Char}
    (h : utf8ScanFuel n s = some (text, tail)) : s = utf8 text ++ tail ∧ IsIncomplete tail := by
  have hstop : ∀ (s : Bytes) (text : List Char),
      (if isIncomplete s then some (([] : List Char), s) else none) = some (text, tail) →
        s = utf8 text ++ tail ∧ IsIncomplete tail := by
    intro s text h
    split at h
    · next hinc =>
        obtain ⟨rfl, rfl⟩ := Prod.mk.inj (Option.some.inj h)
        exact ⟨rfl, isIncomplete_iff.mp hinc⟩
    · cases h
  induction n generalizing s text with
  | zero => exact hstop s text h
  | succ n ih =>
      rw [utf8ScanFuel] at h
      cases hnext : utf8Next s with
      | none =>
          rw [hnext] at h
          exact hstop s text h
      | some first =>
          obtain ⟨c, rest⟩ := first
          rw [hnext] at h
          obtain ⟨⟨text', tail'⟩, hrest, heq⟩ := Option.map_eq_some_iff.mp h
          obtain ⟨rfl, rfl⟩ := Prod.mk.inj heq
          obtain ⟨hs, htail⟩ := ih hrest
          refine ⟨?_, htail⟩
          rw [utf8Next_eq_some_iff.mp hnext, utf8_cons, List.append_assoc, ← hs]

/-- Scanning finds the one way to read a string. -/
theorem utf8Scan_eq_some_iff {s tail : Bytes} {text : List Char} :
    utf8Scan s = some (text, tail) ↔ s = utf8 text ++ tail ∧ IsIncomplete tail := by
  constructor
  · exact eq_append_of_utf8ScanFuel
  · rintro ⟨rfl, htail⟩
    apply utf8ScanFuel_append htail
    have hlength := length_le_length_utf8 text
    simp only [List.length_append]
    omega

/-- A first byte of a character, also of those of four to six bytes that UTF-8 has no
more, and bytes that continue it. -/
def MayContinue : Bytes → Prop
  | [] => True
  | a :: rest => 0xC2 ≤ a ∧ a ≤ 0xFD ∧ ∀ b ∈ rest, 0x80 ≤ b ∧ b ≤ 0xBF

theorem IsIncomplete.mayContinue {tail : Bytes} (h : IsIncomplete tail) : MayContinue tail := by
  have hbytes := isIncomplete_iff.mpr h
  match tail with
  | [] => trivial
  | [a] =>
      simp only [isIncomplete, Bool.and_eq_true, decide_eq_true_eq] at hbytes
      exact ⟨hbytes.1, UInt8.le_trans hbytes.2 (by decide), fun _ hb => absurd hb List.not_mem_nil⟩
  | [a, b] =>
      simp only [isIncomplete, Bool.and_eq_true, decide_eq_true_eq, isSecond_iff] at hbytes
      obtain ⟨⟨hlow, hhigh⟩, hb, -⟩ := hbytes
      refine ⟨UInt8.le_trans (by decide) hlow, UInt8.le_trans hhigh (by decide), ?_⟩
      exact List.forall_mem_singleton.mpr hb
  | [a, b, d] =>
      simp only [isIncomplete, Bool.and_eq_true, decide_eq_true_eq, isSecond_iff] at hbytes
      obtain ⟨⟨⟨⟨hlow, hhigh⟩, hb, -⟩, hd⟩, hd'⟩ := hbytes
      refine ⟨UInt8.le_trans (by decide) hlow, UInt8.le_trans hhigh (by decide), ?_⟩
      exact List.forall_mem_cons.mpr ⟨hb, List.forall_mem_singleton.mpr ⟨hd, hd'⟩⟩
  | _ :: _ :: _ :: _ :: _ => cases hbytes

/-- The bytes from F5 on stand in no text, finished or not. -/
theorem utf8Scan_old {a : UInt8} (ha : 0xF5 ≤ a) (text : List Char) :
    utf8Scan (utf8 text ++ [a]) = none := by
  rw [Option.eq_none_iff_forall_ne_some]
  rintro ⟨text', tail⟩ hscan
  obtain ⟨hs, c, hprefix, -⟩ := utf8Scan_eq_some_iff.mp hscan
  have hmem : a ∈ utf8 text' ++ tail := hs ▸ List.mem_concat_self
  obtain ⟨c, hc⟩ : ∃ c, a ∈ String.utf8EncodeChar c := by
    rcases List.mem_append.mp hmem with htext | htail
    · obtain ⟨c', -, hc'⟩ := List.mem_flatMap.mp htext
      exact ⟨c', hc'⟩
    · exact ⟨c, hprefix.subset htail⟩
  exact absurd (UInt8.le_trans ha (mem_utf8EncodeChar_le hc)) (by decide)

/-- Bytes from C0 on are no text. One byte alone can be taken for the beginning of a
character. -/
theorem eq_singleton_of_high {s tail : Bytes} {text : List Char} (hs : ∀ b ∈ s, 0xC0 ≤ b)
    (hne : s ≠ []) (hscan : s = utf8 text ++ tail) (htail : MayContinue tail) :
    ∃ a, s = [a] ∧ 0xC2 ≤ a ∧ a ≤ 0xFD := by
  have hsecond : ∀ a b rest, s = a :: b :: rest → ¬ b ≤ 0xBF := by
    intro a b rest hab hle
    have hge : 0xC0 ≤ b := hs b (by rw [hab]; simp)
    exact absurd (UInt8.le_trans hge hle) (by decide)
  cases text with
  | nil =>
      have hall : s = tail := hscan
      rw [← hall] at htail
      rcases List.exists_cons_of_ne_nil hne with ⟨a, s', hcons⟩
      rw [hcons] at htail
      obtain ⟨hlow, hhigh, hrest⟩ := htail
      cases s' with
      | nil => exact ⟨a, hcons, hlow, hhigh⟩
      | cons b rest => exact absurd (hrest b List.mem_cons_self).2 (hsecond a b rest hcons)
  | cons c text =>
      rw [utf8_cons] at hscan
      rcases utf8EncodeChar_second c with ⟨a, hc, hlow⟩ | ⟨a, b, rest, hc, hle⟩
      · rw [hc] at hscan
        have hge : 0xC0 ≤ a := hs a (by rw [hscan]; simp)
        exact absurd (UInt8.lt_of_le_of_lt hge hlow) (by decide)
      · rw [hc] at hscan
        exact absurd hle (hsecond a b _ hscan)

/-- The text of a well-formed string. -/
def utf8Text (s : Bytes) : Option (List Char) :=
  match utf8Scan s with
  | some (text, []) => some text
  | _ => none

theorem utf8Text_eq_some_iff {s : Bytes} {text : List Char} :
    utf8Text s = some text ↔ s = utf8 text := by
  rw [utf8Text]
  constructor
  · intro h
    split at h
    next text' hscan =>
      obtain rfl := Option.some.inj h
      rw [(utf8Scan_eq_some_iff.mp hscan).1, List.append_nil]
    next => cases h
  · intro h
    have hscan : utf8Scan s = some (text, []) := by
      apply utf8Scan_eq_some_iff.mpr
      rw [List.append_nil]
      exact ⟨h, isIncomplete_iff.mp rfl⟩
    rw [hscan]

theorem utf8Text_utf8 (text : List Char) : utf8Text (utf8 text) = some text :=
  utf8Text_eq_some_iff.mpr rfl

/-- A text is read back from its bytes. -/
theorem utf8_inj {text text' : List Char} (h : utf8 text = utf8 text') : text = text' := by
  apply Option.some.inj
  rw [← utf8Text_utf8, h, utf8Text_utf8]

/-- A byte below 80 stands for its character only. -/
theorem mem_utf8_iff {a : UInt8} (ha : a < 0x80) {c : Char} (hc : String.utf8EncodeChar c = [a])
    {text : List Char} : a ∈ utf8 text ↔ c ∈ text := by
  rw [utf8, List.mem_flatMap]
  constructor
  · rintro ⟨c', hmem, ha'⟩
    have hsize : c'.utf8Size = 1 := by
      have hpos := c'.utf8Size_pos
      rcases Nat.lt_or_ge c'.utf8Size 2 with hlt | hge
      · omega
      · exact absurd (le_of_mem_utf8EncodeChar hge ha') (UInt8.not_le.mpr ha)
    rw [← String.length_utf8EncodeChar, List.length_eq_one_iff] at hsize
    rcases hsize with ⟨b, hb⟩
    rw [hb, List.mem_singleton] at ha'
    have heq : String.utf8EncodeChar c ++ [] = String.utf8EncodeChar c' ++ [] := by
      rw [hc, hb, ha']
    exact (utf8EncodeChar_append_inj heq).1 ▸ hmem
  · intro hmem
    refine ⟨c, hmem, ?_⟩
    rw [hc]
    exact List.mem_singleton_self a

end SearchTools.Library
