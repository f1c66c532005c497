/-
# The conversions of GLib

What `conv2` relies on in `g_convert_with_fallback`. The program uses it between
two charsets only and always with the fallback `"?"`. A converter is a parameter
of the development, with its documented behaviour as named assumptions; a
reference converter shows that they can be met together.
-/

import Mathlib.Data.List.Forall2
import SearchTools.Library.Utf8

namespace SearchTools.Conv2

open SearchTools.Library

/-! ## The charset cp1251 -/

/-- The code points of the bytes 80 to BF. Byte 98 has none. -/
def cp1251Table : List ℕ :=
  [0x402, 0x403, 0x201A, 0x453, 0x201E, 0x2026, 0x2020, 0x2021,
   0x20AC, 0x2030, 0x409, 0x2039, 0x40A, 0x40C, 0x40B, 0x40F,
   0x452, 0x2018, 0x2019, 0x201C, 0x201D, 0x2022, 0x2013, 0x2014,
   0, 0x2122, 0x459, 0x203A, 0x45A, 0x45C, 0x45B, 0x45F,
   0xA0, 0x40E, 0x45E, 0x408, 0xA4, 0x490, 0xA6, 0xA7,
   0x401, 0xA9, 0x404, 0xAB, 0xAC, 0xAD, 0xAE, 0x407,
   0xB0, 0xB1, 0x406, 0x456, 0x491, 0xB5, 0xB6, 0xB7,
   0x451, 0x2116, 0x454, 0xBB, 0x458, 0x405, 0x455, 0x457]

/-- The character of a byte: ASCII, the table, then the letters from А to я. -/
def cp1251Char (b : UInt8) : Option Char :=
  if b < 0x80 then some (Char.ofNat b.toNat)
  else if b = 0x98 then none
  else if b < 0xC0 then some (Char.ofNat (cp1251Table.getD (b.toNat - 0x80) 0))
  else some (Char.ofNat (0x350 + b.toNat))

/-- The byte of a character. -/
def cp1251Byte (c : Char) : Option UInt8 :=
  if c.toNat < 0x80 then some (UInt8.ofNat c.toNat)
  else if 0x410 ≤ c.toNat ∧ c.toNat ≤ 0x44F then some (UInt8.ofNat (c.toNat - 0x350))
  else (cp1251Table.idxOf? c.toNat).map fun i => UInt8.ofNat (0x80 + i)

/-- `text` is the text of `s` in cp1251. -/
def IsCp1251 (s : Bytes) (text : List Char) : Prop :=
  List.Forall₂ (fun b c => cp1251Char b = some c) s text

theorem cp1251Byte_of_cp1251Char {b : UInt8} {c : Char} (h : cp1251Char b = some c) :
    cp1251Byte c = some b := by
  have hall : ∀ b : UInt8, (cp1251Char b).all (fun c => cp1251Byte c = some b) :=
    forall_byte (by decide +kernel)
  simpa [h] using hall b

/-- The bytes outside ASCII have characters outside ASCII, of two or three bytes. -/
theorem utf8Size_of_cp1251Char {b : UInt8} {c : Char} (h : cp1251Char b = some c) :
    (b < 0x80 ∨ 2 ≤ c.utf8Size) ∧ c.utf8Size ≤ 3 := by
  have hall : ∀ b : UInt8,
      (cp1251Char b).all (fun c => (b < 0x80 ∨ 2 ≤ c.utf8Size) ∧ c.utf8Size ≤ 3) :=
    forall_byte (by decide +kernel)
  simpa [h] using hall b

/-! ## Converters -/

inductive Charset
  | cp1251
  | utf8
  deriving DecidableEq, Repr

/-- `g_convert_with_fallback(str, strlen(str), to, from, "?", ..)`: the converted
string, or none when it sets the error. -/
structure Glib where
  gConvertWithFallback (str : Bytes) (target source : Charset) : Option Bytes

/-- The conversions are inverse to each other on mapped bytes, and an unfinished
character at the end is dropped, as the caller asks for the number of bytes read. -/
structure Glib.Inverts (glib : Glib) : Prop where
  fromCp1251 : ∀ {s text}, IsCp1251 s text →
    glib.gConvertWithFallback s .utf8 .cp1251 = some (utf8 text)
  toCp1251 : ∀ {s text tail}, IsCp1251 s text → IsIncomplete tail →
    glib.gConvertWithFallback (utf8 text ++ tail) .cp1251 .utf8 = some s

/-- An ill-formed sequence is an error. The bytes F5 to FD, which once were first bytes
of characters, still count as unfinished at the end; of what may follow them nothing is
said. -/
structure Glib.Converts (glib : Glib) : Prop extends Glib.Inverts glib where
  oldFirst : ∀ {s text a}, IsCp1251 s text → 0xF5 ≤ a → a ≤ 0xFD →
    glib.gConvertWithFallback (utf8 text ++ [a]) .cp1251 .utf8 = some s
  illFormed : ∀ {s}, (∀ text tail, MayContinue tail → s ≠ utf8 text ++ tail) →
    glib.gConvertWithFallback s .cp1251 .utf8 = none

/-- cp1251 takes one byte for a character, and its characters take at most three
bytes in UTF-8. -/
structure Glib.Sized (glib : Glib) : Prop where
  toCp1251 : ∀ {s ans}, glib.gConvertWithFallback s .cp1251 .utf8 = some ans →
    ans.length ≤ s.length
  fromCp1251 : ∀ {s ans}, glib.gConvertWithFallback s .utf8 .cp1251 = some ans →
    ans.length ≤ 3 * s.length

/-- The text in front of one of the bytes F5 to FD. -/
def beforeOldFirst (s : Bytes) : Option (List Char) := do
  let a ← s.getLast?
  if 0xF5 ≤ a && a ≤ 0xFD then utf8Text s.dropLast else none

/-- The text of a string in a charset, less an unfinished character at its end. -/
def Charset.decode : Charset → Bytes → Option (List Char)
  | .cp1251, s => s.mapM cp1251Char
  | .utf8, s => (utf8Scan s).elim (beforeOldFirst s) fun found => some found.1

/-- A text in a charset. A character that the charset lacks becomes `?`. -/
def Charset.encode : Charset → List Char → Bytes
  | .cp1251, text => text.map fun c => (cp1251Byte c).getD 63
  | .utf8, text => Library.utf8 text

/-- The reference converter. -/
def glib : Glib where
  gConvertWithFallback str target source := (source.decode str).map target.encode

theorem mapM_cp1251Char {s : Bytes} {text : List Char} :
    s.mapM cp1251Char = some text ↔ IsCp1251 s text := by
  unfold IsCp1251
  induction s generalizing text with
  | nil => simp [eq_comm]
  | cons b s ih =>
      rw [List.mapM_cons, List.forall₂_cons_left_iff]
      simp only [Option.pure_def, Option.bind_eq_bind, Option.bind_eq_some_iff, Option.some.injEq]
      constructor
      · rintro ⟨c, hc, rest, hrest, rfl⟩
        exact ⟨c, rest, hc, ih.mp hrest, rfl⟩
      · rintro ⟨c, rest, hc, hrest, rfl⟩
        exact ⟨c, hc, rest, ih.mpr hrest, rfl⟩

/-- The bytes of a text that cp1251 has. -/
theorem encode_cp1251 {s : Bytes} {text : List Char} (h : IsCp1251 s text) :
    Charset.cp1251.encode text = s := by
  induction h with
  | nil => rfl
  | cons hb _ ih =>
      simp only [Charset.encode, List.map_cons, cp1251Byte_of_cp1251Char hb, Option.getD_some]
      congr

theorem beforeOldFirst_eq_some_iff {s : Bytes} {text : List Char} :
    beforeOldFirst s = some text ↔ ∃ a, s = utf8 text ++ [a] ∧ 0xF5 ≤ a ∧ a ≤ 0xFD := by
  rw [beforeOldFirst, Option.bind_eq_bind, Option.bind_eq_some_iff]
  constructor
  · rintro ⟨a, hlast, hif⟩
    obtain ⟨init, rfl⟩ := List.getLast?_eq_some_iff.mp hlast
    rw [List.dropLast_concat] at hif
    split at hif
    next hbyte =>
      rw [Bool.and_eq_true, decide_eq_true_eq, decide_eq_true_eq] at hbyte
      exact ⟨a, by rw [utf8Text_eq_some_iff.mp hif], hbyte⟩
    next => cases hif
  · rintro ⟨a, rfl, hbyte⟩
    refine ⟨a, List.getLast?_concat, ?_⟩
    rw [List.dropLast_concat, if_pos (by simpa using hbyte), utf8Text_utf8]

theorem decode_utf8_of_scan {s tail : Bytes} {text : List Char}
    (h : utf8Scan s = some (text, tail)) : Charset.utf8.decode s = some text := by
  rw [Charset.decode, h]
  rfl

theorem decode_utf8_of_none {s : Bytes} (h : utf8Scan s = none) :
    Charset.utf8.decode s = beforeOldFirst s := by
  rw [Charset.decode, h]
  rfl

/-- A string that has a text is the text and what may be unfinished. -/
theorem eq_append_of_decode_utf8 {s : Bytes} {text : List Char}
    (h : Charset.utf8.decode s = some text) : ∃ tail, s = utf8 text ++ tail ∧ MayContinue tail := by
  cases hscan : utf8Scan s with
  | none =>
      rw [decode_utf8_of_none hscan] at h
      obtain ⟨a, hs, hlow, hhigh⟩ := beforeOldFirst_eq_some_iff.mp h
      exact ⟨[a], hs, UInt8.le_trans (by decide) hlow, hhigh,
        fun _ hb => absurd hb List.not_mem_nil⟩
  | some found =>
      obtain ⟨hs, htail⟩ := utf8Scan_eq_some_iff.mp hscan
      rw [decode_utf8_of_scan hscan] at h
      exact ⟨found.2, Option.some.inj h ▸ hs, htail.mayContinue⟩

theorem glib_converts : glib.Converts where
  fromCp1251 := by
    intro s text h
    simp only [glib, Charset.decode, mapM_cp1251Char.mpr h, Option.map_some, Charset.encode]
  toCp1251 := by
    intro s text tail h htail
    have hdecode : Charset.utf8.decode (utf8 text ++ tail) = some text :=
      decode_utf8_of_scan (utf8Scan_eq_some_iff.mpr ⟨rfl, htail⟩)
    simp only [glib, hdecode, Option.map_some, encode_cp1251 h]
  oldFirst := by
    intro s text a h hlow hhigh
    have hdecode : Charset.utf8.decode (utf8 text ++ [a]) = some text := by
      rw [decode_utf8_of_none (utf8Scan_old hlow text)]
      exact beforeOldFirst_eq_some_iff.mpr ⟨a, rfl, hlow, hhigh⟩
    simp only [glib, hdecode, Option.map_some, encode_cp1251 h]
  illFormed := by
    intro s h
    cases hdecode : Charset.utf8.decode s with
    | none => simp only [glib, hdecode, Option.map_none]
    | some text =>
        obtain ⟨tail, hs, htail⟩ := eq_append_of_decode_utf8 hdecode
        exact absurd hs (h text tail htail)

theorem length_utf8_le {s : Bytes} {text : List Char} (h : IsCp1251 s text) :
    (utf8 text).length ≤ 3 * s.length := by
  induction h with
  | nil => exact Nat.le_refl 0
  | cons hb _ ih =>
      have hsize := (utf8Size_of_cp1251Char hb).2
      simp only [utf8_cons, List.length_append, String.length_utf8EncodeChar, List.length_cons]
      omega

theorem glib_sized : glib.Sized where
  toCp1251 := by
    intro s ans h
    obtain ⟨text, htext, rfl⟩ := Option.map_eq_some_iff.mp h
    obtain ⟨tail, rfl, -⟩ := eq_append_of_decode_utf8 htext
    have hlength := length_le_length_utf8 text
    simp only [Charset.encode, List.length_map, List.length_append]
    omega
  fromCp1251 := by
    intro s ans h
    obtain ⟨text, htext, rfl⟩ := Option.map_eq_some_iff.mp h
    exact length_utf8_le (mapM_cp1251Char.mp htext)

end SearchTools.Conv2
