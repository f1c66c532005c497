/-
# C strings and `strtok`

A block of memory is a list of bytes; the string it holds ends at the first
NUL. `strtok` cuts tokens out of a block by writing NULs into it, so its state
keeps the part of the block already passed as well as the rest of the string.
-/

import Mathlib.Data.List.TakeWhile
import SearchTools.Library.Memory

namespace SearchTools.Library

/-- The string that a block of memory holds. -/
def cstr (block : Bytes) : Bytes := block.takeWhile (· ≠ 0)

theorem cstr_eq_self {s : Bytes} (hs : 0 ∉ s) : cstr s = s := by
  apply List.takeWhile_eq_self_iff.mpr
  intro b hb
  exact decide_eq_true fun h => hs (h ▸ hb)

theorem zero_notMem_cstr (s : Bytes) : 0 ∉ cstr s := by
  intro hmem
  simpa using List.mem_takeWhile_imp hmem

theorem cstr_append {s t : Bytes} (hs : 0 ∉ s) : cstr (s ++ t) = s ++ cstr t := by
  apply List.takeWhile_append_of_pos
  intro b hb
  exact decide_eq_true fun h => hs (h ▸ hb)

theorem cstr_append_of_mem {s t : Bytes} (hs : 0 ∈ s) : cstr (s ++ t) = cstr s := by
  induction s with
  | nil => cases hs
  | cons b s ih =>
      by_cases hb : b = 0
      · simp [cstr, hb]
      · have hrest : 0 ∈ s := (List.mem_cons.mp hs).resolve_left (Ne.symm hb)
        have := ih hrest
        simp only [cstr, List.cons_append, List.takeWhile_cons] at this ⊢
        rw [this]

theorem mem_of_mem_cstr {b : UInt8} {s : Bytes} (hb : b ∈ cstr s) : b ∈ s :=
  (List.takeWhile_prefix _).subset hb

/-! ## Character classes of the C locale -/

def isalpha (b : UInt8) : Bool := (65 ≤ b && b ≤ 90) || (97 ≤ b && b ≤ 122)

def isdigit (b : UInt8) : Bool := 48 ≤ b && b ≤ 57

def isblank (b : UInt8) : Bool := b == 32 || b == 9

def isspace (b : UInt8) : Bool := b == 32 || (9 ≤ b && b ≤ 13)

def ispunct (b : UInt8) : Bool :=
  (33 ≤ b && b ≤ 47) || (58 ≤ b && b ≤ 64) || (91 ≤ b && b ≤ 96) || (123 ≤ b && b ≤ 126)

/-! ## Numerals -/

/-- The integer at the beginning of a string: spaces, a sign and decimal digits. -/
def scanInteger (s : Bytes) : Option ℤ :=
  let tail := s.dropWhile isspace
  let unsigned := if tail.head? = some 45 ∨ tail.head? = some 43 then tail.tail else tail
  let digits := unsigned.takeWhile isdigit
  let magnitude : ℕ := digits.foldl (fun n d => 10 * n + (d.toNat - 48)) 0
  if digits = [] then none
  else if tail.head? = some 45 then some (-magnitude) else some magnitude

/-- `atoi`: the integer as a `long`, cut down to an `int`; 0 when there is none. -/
def atoi (s : Bytes) : ℤ :=
  (max (-9223372036854775808) (min ((scanInteger (cstr s)).getD 0) 9223372036854775807)).bmod
    4294967296

example : atoi (bytes " -12ab") = -12 ∧ atoi (bytes "x") = 0 := by decide

/-- The item `%u` of `sscanf`: the integer as an `unsigned long`, cut down to an
`unsigned`; one out of range counts as the largest. -/
def scanUnsigned (s : Bytes) : Option UInt32 :=
  (scanInteger s).map fun n =>
    if n.natAbs < 18446744073709551616 then UInt32.ofInt n else 4294967295

/-! ## Concatenation -/

/-- `strcat` onto a string at the start of a block of `size` bytes. -/
def strcat (size : ℕ) (buf s : Bytes) : Except Fault Bytes :=
  if buf.length + s.length < size then .ok (buf ++ s) else .error .outOfBounds

theorem strcat_of_lt {size : ℕ} {buf s : Bytes} (h : buf.length + s.length < size) :
    strcat size buf s = .ok (buf ++ s) := if_pos h

theorem eq_of_strcat {size : ℕ} {buf s ret : Bytes} (h : strcat size buf s = .ok ret) :
    ret = buf ++ s := by
  unfold strcat at h
  split at h
  · exact (Except.ok.inj h).symm
  · cases h

/-- The state of `strtok`: the bytes before the saved pointer, with the NULs
written so far, and the string from the saved pointer on. -/
structure Strtok where
  passed : Bytes
  rest : Bytes
  deriving DecidableEq, Repr

namespace Strtok

/-- A first call receives the string a block holds. -/
def start (block : Bytes) : Strtok := ⟨[], cstr block⟩

/-- The string the block holds in the present state. -/
def held (st : Strtok) : Bytes := cstr (st.passed ++ st.rest)

/-- Leave the token: overwrite the separator after it, if there is one. -/
def cut (passed : Bytes) : Bytes → Strtok
  | [] => ⟨passed, []⟩
  | _ :: rest => ⟨passed ++ [0], rest⟩

variable (sep : UInt8 → Bool)

/-- One call of `strtok`: skip separators, take the token up to the next
separator and overwrite that separator by a NUL; null at the end of the string. -/
def next (st : Strtok) : Option (Bytes × Strtok) :=
  let skipped := st.rest.takeWhile sep
  let tail := st.rest.dropWhile sep
  let token := tail.takeWhile (!sep ·)
  if tail = [] then none
  else some (token, cut (st.passed ++ skipped ++ token) (tail.dropWhile (!sep ·)))

variable {sep} {st : Strtok}

/-- Separators alone hold no token. -/
theorem next_of_all_sep (hrest : ∀ b ∈ st.rest, sep b) : st.next sep = none := by
  have htail : st.rest.dropWhile sep = [] := List.dropWhile_eq_nil_iff.mpr hrest
  simp [next, htail]

theorem all_sep_of_next_eq_none (h : st.next sep = none) : ∀ b ∈ st.rest, sep b := by
  dsimp only [next] at h
  split at h
  · next hnil => exact List.dropWhile_eq_nil_iff.mp hnil
  · cases h

/-- The token is what stands between the separators it follows and the end of
the string or the next separator. -/
theorem next_token {passed skipped token after : Bytes} (hskipped : ∀ b ∈ skipped, sep b)
    (htoken : ∀ b ∈ token, sep b = false) (hne : token ≠ [])
    (hafter : ∀ d ∈ after.head?, sep d) :
    (Strtok.mk passed (skipped ++ (token ++ after))).next sep =
      some (token, cut (passed ++ skipped ++ token) after) := by
  have hstart : (token ++ after).dropWhile sep = token ++ after ∧
      (token ++ after).takeWhile sep = [] := by
    match token with
    | [] => exact absurd rfl hne
    | b :: token => simp [htoken b List.mem_cons_self]
  have hend : after.dropWhile (!sep ·) = after ∧ after.takeWhile (!sep ·) = [] := by
    match after with
    | [] => exact ⟨rfl, rfl⟩
    | d :: after => simp [hafter d rfl]
  have hall : ∀ b ∈ token, (!sep b) = true := fun b hb => by simp [htoken b hb]
  simp only [next, List.dropWhile_append_of_pos hskipped, List.takeWhile_append_of_pos hskipped,
    hstart, List.dropWhile_append_of_pos hall, List.takeWhile_append_of_pos hall, hend,
    List.append_nil, List.append_eq_nil_iff, hne, false_and, if_false]

/-- What a call passes over: separators, the token, and the separator after it. -/
theorem eq_of_next {st' : Strtok} {token : Bytes} (h : st.next sep = some (token, st')) :
    ∃ skipped after, st.rest = skipped ++ (token ++ after) ∧ (∀ b ∈ skipped, sep b) ∧
      (∀ b ∈ token, sep b = false) ∧ token ≠ [] ∧ (∀ d ∈ after.head?, sep d) ∧
      st' = cut (st.passed ++ skipped ++ token) after := by
  dsimp only [next] at h
  split at h
  · cases h
  · next hne =>
      obtain ⟨rfl, rfl⟩ := Prod.mk.inj (Option.some.inj h)
      refine ⟨st.rest.takeWhile sep, (st.rest.dropWhile sep).dropWhile (!sep ·), ?_, ?_, ?_, ?_,
        ?_, rfl⟩
      · rw [List.takeWhile_append_dropWhile, List.takeWhile_append_dropWhile]
      · exact fun b hb => List.mem_takeWhile_imp hb
      · exact fun b hb => by simpa using List.mem_takeWhile_imp hb
      · intro hnil
        obtain ⟨b, tail, htail⟩ := List.exists_cons_of_ne_nil hne
        have hb : sep b = false := by
          have := List.head?_dropWhile_not sep st.rest
          simpa [htail] using this
        simp [htail, hb] at hnil
      · intro d hd
        have := List.head?_dropWhile_not (!sep ·) (st.rest.dropWhile sep)
        rw [Option.mem_def.mp hd] at this
        simpa using this

/-- The string of the block ends after the first token that a separator follows. -/
theorem held_of_next {st' : Strtok} {token : Bytes} (h : st.next sep = some (token, st'))
    (hpassed : 0 ∈ st.passed) : 0 ∈ st'.passed ∧ st'.held = st.held := by
  obtain ⟨skipped, after, -, -, -, -, -, rfl⟩ := eq_of_next h
  match after with
  | [] => simp [cut, held, cstr_append_of_mem hpassed, hpassed, List.append_assoc]
  | d :: after => simp [cut, held, cstr_append_of_mem hpassed, hpassed, List.append_assoc]

/-- The first call on a string cuts it, unless nothing but its first token follows
the separators at its start. -/
theorem held_of_first_next {st' : Strtok} {s token : Bytes} (hzero : 0 ∉ s)
    (h : (start s).next sep = some (token, st')) :
    (st'.held = s ↔ ∀ b ∈ s.dropWhile sep, sep b = false) ∧
      (st'.rest ≠ [] → 0 ∈ st'.passed) := by
  obtain ⟨skipped, after, hrest, hskipped, htoken, hne, hafter, rfl⟩ := eq_of_next h
  have hs : s = skipped ++ (token ++ after) := (cstr_eq_self hzero).symm.trans hrest
  have hdrop : s.dropWhile sep = token ++ after := by
    obtain ⟨b, token', rfl⟩ := List.exists_cons_of_ne_nil hne
    rw [hs, List.dropWhile_append_of_pos hskipped, List.cons_append,
      List.dropWhile_cons_of_neg (by simp [htoken b List.mem_cons_self])]
  have hclean : 0 ∉ skipped ++ token := by
    rw [hs] at hzero
    simp only [List.mem_append, not_or] at hzero ⊢
    exact ⟨hzero.1, hzero.2.1⟩
  rw [hdrop]
  cases after with
  | nil =>
      have hheld := cstr_eq_self hclean
      simp only [cut, held, start, List.nil_append, List.append_nil, ne_eq, not_true_eq_false,
        false_implies, and_true] at hs ⊢
      rw [hheld, hs]
      exact iff_of_true rfl htoken
  | cons d after =>
      have hd : sep d := hafter d rfl
      have hheld := cstr_append (t := 0 :: after) hclean
      refine ⟨iff_of_false ?_ fun hall => ?_, fun _ => by simp [cut]⟩
      · simp only [cut, held, start, List.nil_append, List.append_assoc, List.cons_append] at hheld ⊢
        rw [hheld, hs]
        simp [cstr]
      · have hfalse := hall d (List.mem_append_right _ List.mem_cons_self)
        rw [hd] at hfalse
        cases hfalse

/-- The tokens of a string: what stands between its separators. -/
def tokens (sep : UInt8 → Bool) (s : Bytes) : List Bytes := (s.splitOnP sep).filter (· ≠ [])

theorem tokens_of_all_sep {s : Bytes} (hs : ∀ b ∈ s, sep b) : tokens sep s = [] := by
  induction s with
  | nil => simp [tokens]
  | cons b s ih =>
      have hrest := ih fun b hb => hs b (List.mem_cons_of_mem _ hb)
      simpa [tokens, List.splitOnP_cons_eq_if_modifyHead, hs b List.mem_cons_self] using hrest

theorem tokens_skipped {skipped s : Bytes} (hskipped : ∀ b ∈ skipped, sep b) :
    tokens sep (skipped ++ s) = tokens sep s := by
  induction skipped with
  | nil => rfl
  | cons b skipped ih =>
      have hrest := ih fun b hb => hskipped b (List.mem_cons_of_mem _ hb)
      simpa [tokens, List.splitOnP_cons_eq_if_modifyHead, hskipped b List.mem_cons_self] using hrest

/-- A token and the separator that ends it. -/
theorem tokens_token {token : Bytes} (htoken : ∀ b ∈ token, sep b = false) (hne : token ≠ [])
    {d : UInt8} (hd : sep d) (s : Bytes) :
    tokens sep (token ++ d :: s) = token :: tokens sep s := by
  rw [tokens, List.splitOnP_append_cons_of_forall_mem htoken d hd,
    List.filter_cons_of_pos (by simpa using hne)]
  rfl

/-- `strtok` gives the tokens of the string one after the other. -/
theorem tokens_of_next {st' : Strtok} {token : Bytes} (h : st.next sep = some (token, st')) :
    tokens sep st.rest = token :: tokens sep st'.rest := by
  obtain ⟨skipped, after, hrest, hskipped, htoken, hne, hafter, rfl⟩ := eq_of_next h
  rw [hrest, tokens_skipped hskipped]
  match after with
  | [] =>
      rw [List.append_nil, tokens, List.splitOnP_eq_singleton htoken,
        List.filter_cons_of_pos (by simpa using hne)]
      rfl
  | d :: after => exact tokens_token htoken hne (hafter d rfl) after

theorem tokens_of_next_eq_none (h : st.next sep = none) : tokens sep st.rest = [] :=
  tokens_of_all_sep (all_sep_of_next_eq_none h)

/-- A call shortens the rest at least by the token. -/
theorem length_of_next {st' : Strtok} {token : Bytes} (h : st.next sep = some (token, st')) :
    token ≠ [] ∧ token.length + st'.rest.length ≤ st.rest.length := by
  obtain ⟨skipped, after, hrest, -, -, hne, -, rfl⟩ := eq_of_next h
  refine ⟨hne, ?_⟩
  rw [hrest]
  match after with
  | [] =>
      simp only [cut, List.length_append, List.length_nil]
      omega
  | d :: after =>
      simp only [cut, List.length_append, List.length_cons]
      omega

end Strtok

end SearchTools.Library
