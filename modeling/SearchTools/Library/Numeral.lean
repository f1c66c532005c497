/-
# Numerals

What a decimal numeral denotes by its digits, and that `atoi` reads it so, whatever
follows it that is not a digit. What `printf` writes for `%ld` and `%x`, and that
`strtoll` and `atoi` read it back.
-/

import Mathlib.Data.List.Basic
import Mathlib.Data.Nat.Digits.Defs
import SearchTools.Library.CString

namespace SearchTools.Library

/-! ## Decimal numerals -/

/-- Decimal digits with an optional sign. -/
structure Numeral where
  sign : Bytes
  digits : Bytes
  sign_ok : sign = [] ∨ sign = [43] ∨ sign = [45]
  digits_ne_nil : digits ≠ []
  digits_ok : ∀ d ∈ digits, isdigit d

namespace Numeral

def text (n : Numeral) : Bytes := n.sign ++ n.digits

def magnitude (n : Numeral) : ℕ := Nat.ofDigits 10 (n.digits.reverse.map fun d => d.toNat - 48)

/-- The integer a numeral denotes. -/
def value (n : Numeral) : ℤ := if n.sign = [45] then -(n.magnitude : ℤ) else n.magnitude

/-- Reading the digits from the front gives their place value. -/
theorem foldl_digits (digits : Bytes) :
    digits.foldl (fun n d => 10 * n + (d.toNat - 48)) 0 =
      Nat.ofDigits 10 (digits.reverse.map fun d => d.toNat - 48) := by
  rw [Nat.ofDigits_eq_foldr, List.foldr_map, List.foldr_reverse]
  congr 1
  funext n d
  rw [Nat.cast_id, Nat.add_comm]

variable (n : Numeral)

theorem mem_text {b : UInt8} (hb : b ∈ n.text) : b = 43 ∨ b = 45 ∨ isdigit b := by
  rcases List.mem_append.mp hb with hsign | hdigit
  · rcases n.sign_ok with h | h | h
    · rw [h] at hsign
      cases hsign
    · rw [h] at hsign
      exact Or.inl (List.mem_singleton.mp hsign)
    · rw [h] at hsign
      exact Or.inr (Or.inl (List.mem_singleton.mp hsign))
  · exact Or.inr (Or.inr (n.digits_ok b hdigit))

theorem text_ne_nil : n.text ≠ [] := List.append_ne_nil_of_right_ne_nil _ n.digits_ne_nil

/-- No byte of a numeral is white space, a NUL or an `=`. -/
theorem text_plain {b : UInt8} (hb : b ∈ n.text) : isspace b = false ∧ b ≠ 0 ∧ b ≠ 61 := by
  have hall : ∀ b : UInt8, b = 43 ∨ b = 45 ∨ isdigit b → isspace b = false ∧ b ≠ 0 ∧ b ≠ 61 :=
    forall_byte (by decide +kernel)
  exact hall b (n.mem_text hb)

/-- The integer at the beginning of a string is the numeral that stands there. -/
theorem scanInteger_append {tail : Bytes} (htail : ∀ b ∈ tail.head?, isdigit b = false) :
    scanInteger (n.text ++ tail) = some n.value := by
  have hspace : (n.text ++ tail).dropWhile isspace = n.text ++ tail := by
    rcases List.exists_cons_of_ne_nil n.text_ne_nil with ⟨b, rest, htext⟩
    have hb : isspace b = false := (n.text_plain (htext ▸ List.mem_cons_self)).1
    rw [htext, List.cons_append, List.dropWhile_cons_of_neg (by simp [hb])]
  have hend : tail.takeWhile isdigit = [] := by
    cases tail with
    | nil => rfl
    | cons b tail => simp [htail b rfl]
  have hdigits : (n.digits ++ tail).takeWhile isdigit = n.digits := by
    rw [List.takeWhile_append_of_pos n.digits_ok, hend, List.append_nil]
  have hunsigned : (n.digits ++ tail).head? ≠ some 45 ∧ (n.digits ++ tail).head? ≠ some 43 := by
    rcases List.exists_cons_of_ne_nil n.digits_ne_nil with ⟨d, rest, hcons⟩
    have hd : isdigit d := n.digits_ok d (hcons ▸ List.mem_cons_self)
    rw [hcons, List.cons_append, List.head?_cons]
    constructor
    · intro h
      rw [Option.some.inj h] at hd
      cases hd
    · intro h
      rw [Option.some.inj h] at hd
      cases hd
  have hvalue := foldl_digits n.digits
  unfold scanInteger
  rw [hspace]
  dsimp only
  rcases n.sign_ok with h | h | h
  · have htext : n.text ++ tail = n.digits ++ tail := by rw [text, h, List.nil_append]
    rw [htext, if_neg (not_or.mpr hunsigned), hdigits, if_neg n.digits_ne_nil, if_neg hunsigned.1,
      hvalue, value, if_neg (by rw [h]; decide), magnitude]
  · have htext : n.text ++ tail = 43 :: (n.digits ++ tail) := by rw [text, h]; rfl
    rw [htext, List.head?_cons, if_pos (Or.inr rfl), List.tail_cons, hdigits, if_neg n.digits_ne_nil,
      if_neg (by decide), hvalue, value, if_neg (by rw [h]; decide), magnitude]
  · have htext : n.text ++ tail = 45 :: (n.digits ++ tail) := by rw [text, h]; rfl
    rw [htext, List.head?_cons, if_pos (Or.inl rfl), List.tail_cons, hdigits, if_neg n.digits_ne_nil,
      if_pos rfl, hvalue, value, if_pos h, magnitude]

/-- `atoi` reads a numeral in the range of `int` as it is. -/
theorem atoi_append (hlow : -2147483648 ≤ n.value) (hhigh : n.value ≤ 2147483647) {tail : Bytes}
    (hzero : 0 ∉ tail) (htail : ∀ b ∈ tail.head?, isdigit b = false) :
    atoi (n.text ++ tail) = n.value := by
  have hclean : 0 ∉ n.text ++ tail := by
    intro hmem
    rcases List.mem_append.mp hmem with h | h
    · exact (n.text_plain h).2.1 rfl
    · exact hzero h
  rw [atoi, cstr_eq_self hclean, n.scanInteger_append htail, Option.getD_some,
    min_eq_left (by omega), max_eq_right (by omega)]
  exact Int.bmod_eq_of_le (by omega) (by omega)

end Numeral

/-! ## Other bases -/

/-- The digits of a number, in small letters. -/
def digitText (base n : ℕ) : Bytes := (Nat.toDigits base n).map fun c => c.val.toUInt8

/-- The value of a digit or letter; 36 for other bytes. -/
def digitValue (b : UInt8) : ℕ :=
  if 48 ≤ b ∧ b ≤ 57 then b.toNat - 48
  else if 97 ≤ b ∧ b ≤ 122 then b.toNat - 87
  else if 65 ≤ b ∧ b ≤ 90 then b.toNat - 55
  else 36

def radixValue (base : ℕ) (digits : Bytes) : ℕ :=
  digits.foldl (fun n d => base * n + digitValue d) 0

/-- `0x` before a hexadecimal digit. -/
def skipHexMark : Bytes → Bytes
  | 48 :: x :: d :: rest =>
    if (x = 120 ∨ x = 88) ∧ digitValue d < 16 then d :: rest else 48 :: x :: d :: rest
  | s => s

/-- `strtoll`: the number, and the rest of the string. -/
def strtoll (base : ℕ) (s : Bytes) : ℤ × Bytes :=
  let tail := s.dropWhile isspace
  let unsigned := if tail.head? = some 45 ∨ tail.head? = some 43 then tail.tail else tail
  let unsigned := if base = 16 then skipHexMark unsigned else unsigned
  let digits := unsigned.takeWhile (digitValue · < base)
  let magnitude : ℤ := radixValue base digits
  if digits = [] then (0, s)
  else
    (max (-9223372036854775808) (min (if tail.head? = some 45 then -magnitude else magnitude)
      9223372036854775807), unsigned.drop digits.length)

example : strtoll 16 (bytes " 0x1fz") = (31, bytes "z") := by decide

theorem decimal_natCast (n : ℕ) : decimal n = digitText 10 n := by
  rw [decimal, if_neg (by omega), List.nil_append, Int.natAbs_natCast]
  rfl

variable {base n : ℕ}

theorem digitText_of_lt (h : n < base) : digitText base n = [(Nat.digitChar n).val.toUInt8] := by
  rw [digitText, Nat.toDigits_of_lt_base h]
  rfl

theorem digitText_of_le (hbase : 1 < base) (h : base ≤ n) :
    digitText base n = digitText base (n / base) ++ digitText base (n % base) := by
  rw [digitText_of_lt (Nat.mod_lt n (by omega)), digitText, Nat.toDigits_of_base_le hbase h,
    List.map_append]
  rfl

theorem digitText_ne_nil (base n : ℕ) : digitText base n ≠ [] := by
  rw [digitText, Ne, List.map_eq_nil_iff]
  exact Nat.toDigits_ne_nil

theorem digitValue_digitChar : ∀ d < 16, digitValue (Nat.digitChar d).val.toUInt8 = d := by
  decide

theorem radixValue_concat (digits : Bytes) (d : UInt8) :
    radixValue base (digits ++ [d]) = base * radixValue base digits + digitValue d := by
  rw [radixValue, List.foldl_append]
  rfl

/-- The digits are digits of the base. -/
theorem digitValue_lt_of_mem (hbase : 1 < base) (hmax : base ≤ 16) {d : UInt8}
    (hd : d ∈ digitText base n) : digitValue d < base := by
  induction n using Nat.strongRecOn with
  | ind n ih =>
    by_cases h : n < base
    · rw [digitText_of_lt h, List.mem_singleton] at hd
      rw [hd, digitValue_digitChar n (by omega)]
      exact h
    · rw [digitText_of_le hbase (by omega)] at hd
      rcases List.mem_append.mp hd with hdiv | hmod
      · exact ih (n / base) (Nat.div_lt_self (by omega) hbase) hdiv
      · have hlt := Nat.mod_lt n (show 0 < base by omega)
        rw [digitText_of_lt hlt, List.mem_singleton] at hmod
        rw [hmod, digitValue_digitChar _ (by omega)]
        exact hlt

/-- They have the value of the number. -/
theorem radixValue_digitText (n : ℕ) (hbase : 1 < base) (hmax : base ≤ 16) :
    radixValue base (digitText base n) = n := by
  induction n using Nat.strongRecOn with
  | ind n ih =>
    by_cases h : n < base
    · rw [digitText_of_lt h]
      show base * 0 + _ = n
      rw [digitValue_digitChar n (by omega)]
      omega
    · have hlt := Nat.mod_lt n (show 0 < base by omega)
      rw [digitText_of_le hbase (by omega), digitText_of_lt hlt, radixValue_concat,
        ih _ (Nat.div_lt_self (by omega) hbase), digitValue_digitChar _ (by omega)]
      exact Nat.div_add_mod n base

/-- Digits are no spaces, signs or letters past `f`. -/
theorem digit_plain : ∀ b : UInt8, digitValue b < 16 →
    isspace b = false ∧ b ≠ 45 ∧ b ≠ 43 ∧ b ≠ 120 ∧ b ≠ 88 ∧ b ≠ 0 ∧ b ≠ 13 ∧ b ≠ 10 :=
  forall_byte (by decide +kernel)

theorem skipHexMark_eq_self {s : Bytes} (hs : ∀ b ∈ s.tail.head?, b ≠ 120 ∧ b ≠ 88) :
    skipHexMark s = s := by
  unfold skipHexMark
  split
  · next x d rest =>
    rw [if_neg]
    rintro ⟨hx | hx, -⟩
    · exact (hs x rfl).1 hx
    · exact (hs x rfl).2 hx
  · rfl

/-- A number that was written is read back. -/
theorem strtoll_append (hbase : 1 < base) (hmax : base ≤ 16) (hn : n ≤ 9223372036854775807)
    {tail : Bytes} (htail : ∀ b ∈ tail.head?, digitValue b = 36) :
    strtoll base (digitText base n ++ tail) = ((n : ℤ), tail) := by
  obtain ⟨d, digits, hdigits⟩ := List.exists_cons_of_ne_nil (digitText_ne_nil base n)
  have hmem : ∀ b ∈ d :: digits, digitValue b < base := fun b hb =>
    digitValue_lt_of_mem hbase hmax (hdigits ▸ hb)
  have hplain := digit_plain d (Nat.lt_of_lt_of_le (hmem d List.mem_cons_self) hmax)
  have hmark : skipHexMark (d :: digits ++ tail) = d :: digits ++ tail := by
    refine skipHexMark_eq_self fun b hb => ?_
    cases digits with
    | nil =>
      have h36 := htail b hb
      constructor <;> rintro rfl <;> exact absurd h36 (by decide)
    | cons x digits =>
      obtain rfl := Option.some.inj hb
      have hx := digit_plain x
        (Nat.lt_of_lt_of_le (hmem x (List.mem_cons_of_mem _ List.mem_cons_self)) hmax)
      exact ⟨hx.2.2.2.1, hx.2.2.2.2.1⟩
  have hend : tail.takeWhile (digitValue · < base) = [] := by
    cases tail with
    | nil => rfl
    | cons b tail =>
      rw [List.takeWhile_cons_of_neg]
      have := htail b rfl
      simp only [decide_eq_true_eq]
      omega
  have htake : (d :: digits ++ tail).takeWhile (digitValue · < base) = d :: digits := by
    rw [List.takeWhile_append_of_pos fun b hb => decide_eq_true (hmem b hb), hend,
      List.append_nil]
  have hvalue : radixValue base (d :: digits) = n := by
    rw [← hdigits, radixValue_digitText n hbase hmax]
  have hskip : (d :: digits ++ tail).dropWhile isspace = d :: digits ++ tail := by
    rw [List.cons_append, List.dropWhile_cons_of_neg (by rw [hplain.1]; exact Bool.false_ne_true)]
  have hhead : (d :: digits ++ tail).head? = some d := rfl
  have hsign : ¬ ((d :: digits ++ tail).head? = some 45 ∨ (d :: digits ++ tail).head? = some 43) := by
    rw [hhead, Option.some_inj, Option.some_inj]
    exact not_or.mpr ⟨hplain.2.1, hplain.2.2.1⟩
  have hsame : (if base = 16 then d :: digits ++ tail else d :: digits ++ tail) =
      d :: digits ++ tail := ite_self _
  rw [hdigits]
  unfold strtoll
  rw [hskip]
  dsimp only
  rw [if_neg hsign, hmark, hsame, htake, if_neg (List.cons_ne_nil _ _), hvalue,
    if_neg (not_or.mp hsign).1, List.drop_left, Int.min_eq_left (by omega), Int.max_eq_right (by omega)]

theorem strtoll_digitText (hbase : 1 < base) (hmax : base ≤ 16)
    (hn : n ≤ 9223372036854775807) : strtoll base (digitText base n) = ((n : ℤ), []) := by
  have hread : strtoll base (digitText base n ++ []) = ((n : ℤ), []) :=
    strtoll_append hbase hmax hn fun b hb => by cases hb
  rwa [List.append_nil] at hread

/-- `atoi` reads a number that was written. -/
theorem atoi_decimal (hn : n ≤ 2147483647) : atoi (decimal n) = n := by
  have hdigit : ∀ d ∈ digitText 10 n, isdigit d ∧ digitValue d = d.toNat - 48 := fun d hd =>
    forall_byte (P := fun d => digitValue d < 10 → isdigit d ∧ digitValue d = d.toNat - 48)
      (by decide +kernel) d (digitValue_lt_of_mem (by decide) (by decide) hd)
  let numeral : Numeral := ⟨[], digitText 10 n, Or.inl rfl, digitText_ne_nil 10 n,
    fun d hd => (hdigit d hd).1⟩
  have hvalue : numeral.value = n := by
    have hmagnitude : numeral.magnitude = n := by
      rw [Numeral.magnitude, ← Numeral.foldl_digits,
        ← radixValue_digitText n (show 1 < 10 by decide) (by decide), radixValue]
      exact List.foldl_ext _ _ _ fun m d hd => by rw [(hdigit d hd).2]
    rw [Numeral.value, if_neg (fun h => List.cons_ne_nil _ _ h.symm), hmagnitude]
  have hread : atoi (numeral.text ++ []) = numeral.value :=
    numeral.atoi_append (by omega) (by omega) List.not_mem_nil fun _ hb => by cases hb
  rw [List.append_nil, hvalue] at hread
  rwa [decimal_natCast]

end SearchTools.Library
