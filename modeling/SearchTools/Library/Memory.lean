/-
# Memory

What a C program works on: faults, byte strings and blocks of memory. Code that may fault
is modelled in `Except Fault`; a loop whose end is not structural also reports when its
fuel is spent. C strings are lists of bytes without the terminating NUL. A block is what
`malloc` gives, a list of bytes of fixed length that is read and written in parts; an
access outside it is a fault.
-/

import Mathlib.Algebra.Group.Int.Defs
import Mathlib.Algebra.Group.Nat.Defs

namespace SearchTools.Library

/-! ## Faults -/

universe u

inductive Fault
  | nullPointer
  | outOfBounds
  | divisionByZero
  | useAfterFree
  | outOfFuel
  deriving DecidableEq, Repr

/-- A sequence of two steps succeeds when both do. -/
theorem bind_eq_ok {α β : Type u} {x : Except Fault α} {f : α → Except Fault β} {b : β} :
    (x >>= f) = .ok b ↔ ∃ a, x = .ok a ∧ f a = .ok b := by
  cases x with
  | error fault => simp [Bind.bind, Except.bind]
  | ok a => simp [Bind.bind, Except.bind]

theorem ok_bind {α β : Type u} (a : α) (f : α → Except Fault β) :
    ((Except.ok a : Except Fault α) >>= f) = f a := rfl

/-- A computation that returns, or faults in the given way only. -/
def FaultsOnly {α : Type u} (fault : Fault) (x : Except Fault α) : Prop :=
  ∀ other, x = .error other → other = fault

theorem FaultsOnly.bind {α β : Type u} {fault : Fault} {x : Except Fault α}
    {f : α → Except Fault β} (hx : FaultsOnly fault x) (hf : ∀ a, FaultsOnly fault (f a)) :
    FaultsOnly fault (x >>= f) := by
  intro other h
  cases x with
  | error first => exact hx other (congrArg Except.error (Except.error.inj h))
  | ok a => exact hf a other h

/-- The C `%` on `int`: truncated towards zero, and a trap on a zero divisor. -/
def cmod (x y : ℤ) : Except Fault ℤ :=
  if y = 0 then .error .divisionByZero else .ok (x.tmod y)

theorem cmod_of_ne_zero {x y : ℤ} (hy : y ≠ 0) : cmod x y = .ok (x.tmod y) := if_neg hy

abbrev Bytes := List UInt8

/-- The bytes of an ASCII literal. -/
def bytes (s : String) : Bytes := s.toList.map fun c => c.val.toUInt8

/-- `printf("%d")`. -/
def decimal (n : ℤ) : Bytes :=
  (if n < 0 then bytes "-" else []) ++
    (Nat.toDigits 10 n.natAbs).map fun c => c.val.toUInt8

example : decimal (-12) = bytes "-12" := by decide

/-- An integer is written with digits and a minus sign. -/
theorem mem_decimal {b : UInt8} {n : ℤ} (hb : b ∈ decimal n) :
    b = 45 ∨ 48 ≤ b.toNat ∧ b.toNat ≤ 57 := by
  rcases List.mem_append.mp hb with hsign | hdigit
  · split at hsign
    · exact Or.inl (List.mem_singleton.mp hsign)
    · cases hsign
  · right
    rcases List.mem_map.mp hdigit with ⟨c, hc, rfl⟩
    have hdigit := Nat.isDigit_of_mem_toDigits (by decide) (by decide) hc
    simp only [Char.isDigit, Bool.and_eq_true, decide_eq_true_eq, ge_iff_le,
      UInt32.le_iff_toNat_le] at hdigit
    rw [UInt32.toNat_toUInt8]
    have hlow : 48 ≤ c.val.toNat := hdigit.1
    have hhigh : c.val.toNat ≤ 57 := hdigit.2
    omega

/-- A property of bytes is checked on the 256 of them. -/
theorem forall_byte {P : UInt8 → Prop} (h : ∀ n < 256, P (UInt8.ofNat n)) (b : UInt8) : P b := by
  have hb := h b.toNat b.toNat_lt
  rwa [UInt8.ofNat_toNat] at hb

/-! ## Numbers of the machine -/

/-- What an `int` keeps of a number. -/
def wrapInt (n : ℤ) : ℤ := n.bmod (2 ^ 32)

theorem wrapInt_of_lt {n : ℤ} (hlow : -2 ^ 31 ≤ n) (hhigh : n < 2 ^ 31) : wrapInt n = n :=
  Int.bmod_eq_of_le (by omega) (by omega)

/-- What a `size_t` keeps of a number. -/
def wrapSize (n : ℕ) : ℕ := n % 2 ^ 64

theorem wrapSize_le (n : ℕ) : wrapSize n ≤ n := Nat.mod_le n _

theorem wrapSize_of_lt {n : ℕ} (h : n < 2 ^ 64) : wrapSize n = n := Nat.mod_eq_of_lt h

/-- What an `unsigned int` keeps of a number. -/
def wrapUInt (n : ℕ) : ℕ := n % 2 ^ 32

theorem wrapUInt_of_lt {n : ℕ} (h : n < 2 ^ 32) : wrapUInt n = n := Nat.mod_eq_of_lt h

/-- An `int` as a `size_t`. -/
def intToSize (n : ℤ) : ℕ := (n % 2 ^ 64).toNat

theorem intToSize_natCast {n : ℕ} (h : n < 2 ^ 64) : intToSize n = n := by
  unfold intToSize
  omega

/-! ## Blocks -/

/-- What stands in new memory, for every size. There is always memory. -/
structure Malloc where
  fresh : ℕ → Bytes
  length_fresh : ∀ n, (fresh n).length = n

/-- Memory that is cleared. -/
def Malloc.zeroed : Malloc := ⟨fun n => List.replicate n 0, fun _ => List.length_replicate⟩

/-- The `n` bytes from `i` on. -/
def slice (block : Bytes) (i n : ℕ) : Bytes := (block.drop i).take n

/-- `memcpy(data, block + i, n)`. -/
def readBlock (block : Bytes) (i n : ℕ) : Except Fault Bytes :=
  if i + n ≤ block.length then .ok (slice block i n) else .error .outOfBounds

/-- `memcpy(block + i, data, n)`. -/
def writeBlock (block : Bytes) (i : ℕ) (data : Bytes) : Except Fault Bytes :=
  if i + data.length ≤ block.length then
    .ok (block.take i ++ data ++ block.drop (i + data.length))
  else .error .outOfBounds

/-- `realloc(block, n)`. -/
def Malloc.realloc (malloc : Malloc) (block : Bytes) (n : ℕ) : Bytes :=
  block.take n ++ (malloc.fresh n).drop block.length

variable {block data : Bytes} {i m n : ℕ}

theorem length_slice (h : i + n ≤ block.length) : (slice block i n).length = n := by
  rw [slice, List.length_take, List.length_drop]
  omega

theorem slice_add : slice block i (m + n) = slice block i m ++ slice block (i + m) n := by
  rw [slice, List.take_add, List.drop_drop]
  rfl

@[simp] theorem slice_zero : slice block i 0 = [] := List.take_zero

theorem drop_slice : (slice block i n).drop m = slice block (i + m) (n - m) := by
  rw [slice, List.drop_take, List.drop_drop]
  rfl

theorem take_slice (h : m ≤ n) : (slice block i n).take m = slice block i m := by
  rw [slice, List.take_take, Nat.min_eq_left h]
  rfl

/-- A part of the beginning. -/
theorem slice_append_left {rest : Bytes} (h : i + n ≤ block.length) :
    slice (block ++ rest) i n = slice block i n := by
  rw [slice, List.drop_append_of_le_length (by omega),
    List.take_append_of_le_length (by rw [List.length_drop]; omega)]
  rfl

theorem slice_take (h : i + n ≤ m) : slice (block.take m) i n = slice block i n := by
  rw [slice, List.drop_take, List.take_take, Nat.min_eq_left (by omega)]
  rfl

theorem readBlock_eq (h : i + n ≤ block.length) : readBlock block i n = .ok (slice block i n) :=
  if_pos h

/-- A write changes nothing but the bytes written. -/
theorem writeBlock_spec (block : Bytes) (i : ℕ) (data : Bytes)
    (h : i + data.length ≤ block.length) :
    ∃ block', writeBlock block i data = .ok block' ∧ block'.length = block.length ∧
      slice block' i data.length = data ∧
      ∀ a m, a + m ≤ i → slice block' a m = slice block a m := by
  have hi : (block.take i).length = i := by
    rw [List.length_take]
    omega
  refine ⟨_, if_pos h, ?_, ?_, fun a m ham => ?_⟩
  · simp only [List.length_append, List.length_take, List.length_drop]
    omega
  · have hdrop : (block.take i ++ (data ++ block.drop (i + data.length))).drop i =
        data ++ block.drop (i + data.length) := List.drop_left' hi
    rw [slice, List.append_assoc, hdrop, List.take_left]
  · rw [List.append_assoc, slice_append_left (by omega), slice_take ham]

theorem le_of_writeBlock {block' : Bytes} (h : writeBlock block i data = .ok block') :
    i + data.length ≤ block.length := by
  rw [writeBlock] at h
  split at h
  next hle => exact hle
  next => cases h

namespace Malloc

variable (malloc : Malloc)

theorem length_realloc (block : Bytes) (n : ℕ) : (malloc.realloc block n).length = n := by
  rw [realloc, List.length_append, List.length_take, List.length_drop, malloc.length_fresh]
  omega

/-- What the old block and the new one have room for is kept. -/
theorem slice_realloc (hblock : i + m ≤ block.length) (hn : i + m ≤ n) :
    slice (malloc.realloc block n) i m = slice block i m := by
  rw [realloc, slice_append_left (by rw [List.length_take]; omega), slice_take hn]

end Malloc

/-! ## Memory that can run out -/

/-- Memory with the sizes that are given, while a call runs. -/
structure Heap extends Malloc where
  gives : ℕ → Bool

/-- There is memory of every size. -/
def Malloc.heap (malloc : Malloc) : Heap := { malloc with gives := fun _ => true }

namespace Heap

variable (heap : Heap)

/-- Nothing is refused. -/
def GivesAll : Prop := ∀ n, heap.gives n = true

/-- `realloc(block, n)`, which can be refused. -/
def realloc (block : Bytes) (n : ℕ) : Option Bytes :=
  if heap.gives n then some (heap.toMalloc.realloc block n) else none

/-- `malloc(n)`. -/
def malloc (n : ℕ) : Option Bytes := heap.realloc [] n

variable {heap} {block new : Bytes} {n : ℕ}

theorem not_givesAll_of_realloc (h : heap.realloc block n = none) : ¬ heap.GivesAll := by
  intro hgives
  rw [realloc, if_pos (hgives n)] at h
  cases h

theorem eq_of_realloc (h : heap.realloc block n = some new) :
    new = heap.toMalloc.realloc block n := by
  rw [realloc] at h
  split at h
  · exact (Option.some.inj h).symm
  · cases h

theorem length_of_malloc (h : heap.malloc n = some new) : new.length = n := by
  rw [eq_of_realloc h]
  exact heap.toMalloc.length_realloc [] n

end Heap

theorem Malloc.givesAll_heap (malloc : Malloc) : malloc.heap.GivesAll := fun _ => rfl

end SearchTools.Library
