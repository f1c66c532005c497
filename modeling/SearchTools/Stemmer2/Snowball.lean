/-
# The runtime of the Snowball stemmers

`runtime/utilities.c` and `runtime/api.c` of `stemmer2/sb`: the buffer of a
stemmer with its cursor and limits, the reading of characters, the lookup of
endings and the replacement of slices. Positions count symbols from the start
of the buffer. Reading past the symbols of the buffer is a fault, and in a lookup also
reading past the limits; memory is always there.
-/

import Mathlib.Data.Nat.Bitwise
import SearchTools.Library.Memory

namespace SearchTools.Stemmer2

open SearchTools.Library

/-- `struct SN_env` with the `SIZE(p)` symbols of its buffer and `CAPACITY(p)`. The
two integers of a stemmer are `z->I[0]` and `z->I[1]`. -/
structure SnEnv where
  p : Bytes
  capacity : ℕ
  c : ℕ
  l : ℕ
  lb : ℕ
  bra : ℕ
  ket : ℕ
  I0 : ℕ
  I1 : ℕ
  deriving DecidableEq, Repr

/-- What a routine of a stemmer returns: the value of the C function and the
environment. It is negative for an error, zero for a failed test. -/
abbrev Routine := SnEnv → Except Fault (ℤ × SnEnv)

namespace SnEnv

/-- `z->p[i]`. -/
def symbol (z : SnEnv) (i : ℕ) : Except Fault UInt8 :=
  match z.p[i]? with
  | some b => .ok b
  | none => .error .outOfBounds

theorem symbol_eq {z : SnEnv} {i : ℕ} {b : UInt8} (h : z.p[i]? = some b) :
    z.symbol i = .ok b := by
  rw [symbol, h]

/-- The `n` symbols from `z->p + i` on. -/
def block (z : SnEnv) (i n : ℕ) : Except Fault Bytes :=
  if i + n ≤ z.p.length then .ok ((z.p.drop i).take n) else .error .outOfBounds

/-! ## Characters -/

/-- `get_utf8` from `c` up to the limit `l`: the width, 0 at the limit, and the
character. -/
def getUtf8 (z : SnEnv) (c l : ℕ) : Except Fault (ℕ × ℕ) := do
  if l ≤ c then return (0, 0)
  let b0 ← z.symbol c
  if b0.toNat < 0xC0 ∨ c + 1 = l then return (1, b0.toNat)
  let b1 ← z.symbol (c + 1)
  if b0.toNat < 0xE0 ∨ c + 2 = l then
    return (2, (b0.toNat &&& 0x1F) <<< 6 ||| (b1.toNat &&& 0x3F))
  let b2 ← z.symbol (c + 2)
  return (3, (b0.toNat &&& 0xF) <<< 12 ||| (b1.toNat &&& 0x3F) <<< 6 ||| (b2.toNat &&& 0x3F))

/-- The bit test of the groupings: whether a character is in a set given by the
bits of `s`, which begin with `min`. -/
def inSet (s : List UInt8) (min max ch : ℕ) : Except Fault Bool :=
  if max < ch ∨ ch < min then .ok false
  else
    match s[(ch - min) >>> 3]? with
    | some b => .ok (b.toNat.testBit ((ch - min) &&& 7))
    | none => .error .outOfBounds

/-- `in_grouping_U` and `out_grouping_U` as `inside` is true or false: pass over a
character, or over all of them with `rep`, while it is in the set, or not. The
result is the width of the character that ends the run, -1 at the limit, and 0 when
one character was to be passed and was. -/
def groupingU (s : List UInt8) (min max : ℕ) (inside rep : Bool) :
    ℕ → SnEnv → Except Fault (ℤ × SnEnv)
  | 0, _ => .error .outOfFuel
  | fuel + 1, z => do
      let (w, ch) ← z.getUtf8 z.c z.l
      if w = 0 then return (-1, z)
      if (← inSet s min max ch) ≠ inside then return (w, z)
      let z := { z with c := z.c + w }
      if rep then groupingU s min max inside rep fuel z else return (0, z)

/-! ## Strings at the cursor -/

/-- `eq_s_b`: step back over the string if it stands before the cursor. -/
def eqSB (z : SnEnv) (s : Bytes) : Except Fault (Bool × SnEnv) :=
  if z.c < z.lb + s.length then .ok (false, z)
  else do
    let found ← z.block (z.c - s.length) s.length
    if found ≠ s then return (false, z)
    return (true, { z with c := z.c - s.length })

/-! ## Slices -/

/-- `replace_s`: put `s` in the place of the symbols from `cBra` to `cKet`. -/
def replaceS (z : SnEnv) (cBra cKet : ℕ) (s : Bytes) : Except Fault SnEnv :=
  let adjustment : ℤ := s.length - ((cKet : ℤ) - cBra)
  let size := ((z.p.length : ℤ) + adjustment).toNat
  if cBra ≤ cKet ∧ cKet ≤ z.p.length then
    let moved :=
      if adjustment = 0 then z
      else
        { z with
          -- `increase_size` leaves room for twenty symbols more.
          capacity := if z.capacity < size then size + 20 else z.capacity
          l := (z.l + adjustment).toNat
          c := if cKet ≤ z.c then (z.c + adjustment).toNat else if cBra < z.c then cBra else z.c }
    .ok { moved with p := z.p.take cBra ++ s ++ z.p.drop cKet }
  else .error .outOfBounds

/-- `slice_from_s`; -1 when `slice_check` fails. -/
def sliceFromS (z : SnEnv) (s : Bytes) : Except Fault (ℤ × SnEnv) :=
  if z.ket < z.bra ∨ z.l < z.ket ∨ z.p.length < z.l then .ok (-1, z)
  else do return (0, ← z.replaceS z.bra z.ket s)

/-- `slice_del`. -/
def sliceDel (z : SnEnv) : Except Fault (ℤ × SnEnv) := z.sliceFromS []

/-- A slice deleted as a command that cannot fail. -/
def delete : Routine := fun z => do
  let (ret, z) ← z.sliceDel
  if ret < 0 then return (ret, z)
  return (1, z)

/-! ## Commands

The C text of the commands of the Snowball language. In backward mode the cursor is
remembered as its distance from the end, which a deletion before it does not change. -/

/-- `gopast`: go behind the next character that is not in the set, or that is in it. -/
def gopast (s : List UInt8) (min max : ℕ) (inside : Bool) : Routine := fun z => do
  let (ret, z) ← groupingU s min max inside true (z.l - z.c + 1) z
  if ret < 0 then return (0, z)
  return (1, { z with c := z.c + ret.toNat })

/-- `do` in forward mode. -/
def doForward (r : Routine) : Routine := fun z => do
  let c1 := z.c
  let (ret, z) ← r z
  if ret < 0 then return (ret, z)
  return (1, { z with c := c1 })

/-- `do`: go on at the old cursor, whether the command succeeded or failed. -/
def doBackward (r : Routine) : Routine := fun z => do
  let m := z.l - z.c
  let (ret, z) ← r z
  if ret < 0 then return (ret, z)
  return (1, { z with c := z.l - m })

/-- `try`: go on at the old cursor if the command failed. -/
def tryBackward (r : Routine) : Routine := fun z => do
  let m := z.l - z.c
  let (ret, z) ← r z
  if ret < 0 then return (ret, z)
  if ret = 0 then return (1, { z with c := z.l - m })
  return (1, z)

/-- `or`: the second command at the old cursor if the first one failed. -/
def orBackward (r s : Routine) : Routine := fun z => do
  let m := z.l - z.c
  let (ret, z) ← r z
  if ret < 0 then return (ret, z)
  if ret = 0 then s { z with c := z.l - m } else return (ret, z)

/-- One command after the other, as long as they succeed. -/
def andThen (r s : Routine) : Routine := fun z => do
  let (ret, z) ← r z
  if ret ≤ 0 then return (ret, z)
  s z

section Commands

variable {r : Routine} {z z' : SnEnv}

theorem andThen_of_fail (h : r z = .ok (0, z')) (s : Routine) : andThen r s z = .ok (0, z') := by
  rw [andThen, h]
  rfl

theorem andThen_of_ok (h : r z = .ok (1, z')) (s : Routine) : andThen r s z = s z' := by
  rw [andThen, h]
  rfl

theorem doForward_of_ok {ret : ℤ} (h : r z = .ok (ret, z')) (hret : 0 ≤ ret) :
    doForward r z = .ok (1, { z' with c := z.c }) := by
  rw [doForward, h]
  exact if_neg (Int.not_lt.mpr hret)

end Commands

/-- `eq_s_b` as a command. -/
def literal (s : Bytes) : Routine := fun z => do
  let (found, z) ← z.eqSB s
  return (if found then 1 else 0, z)

/-! ## Environments -/

/-- `SN_create_env`: the one symbol of the buffer is whatever `malloc` left there. -/
def create (junk : UInt8) : SnEnv where
  p := [junk]
  capacity := 1
  c := 0
  l := 0
  lb := 0
  bra := 0
  ket := 0
  I0 := 0
  I1 := 0

/-- `SN_set_current`. -/
def setCurrent (z : SnEnv) (s : Bytes) : Except Fault SnEnv := do
  let z ← z.replaceS 0 z.l s
  return { z with c := 0 }

end SnEnv

/-! ## Endings -/

/-- `struct among`; none is the null pointer. -/
structure Among where
  s : Bytes
  substringI : ℤ
  result : ℤ
  function : Option Routine

/-- `v + i`. -/
def item (v : List Among) (i : ℕ) : Except Fault Among :=
  match v[i]? with
  | some w => .ok w
  | none => .error .outOfBounds

/-- The comparison of a string, of which the first `common` symbols are known to
agree, with the symbols that `read` gives: the difference at the first place where
they part, -1 at the limit, and how far they agree. -/
def compareFrom (read : ℕ → Except Fault (Option UInt8)) : Bytes → ℕ → Except Fault (ℤ × ℕ)
  | [], common => .ok (0, common)
  | b :: s, common => do
      match ← read common with
      | none => return (-1, common)
      | some a =>
          let diff : ℤ := a.toNat - b.toNat
          if diff ≠ 0 then return (diff, common)
          compareFrom read s (common + 1)

/-- The first loop of `find_among` and `find_among_b`: a binary search that compares
from the shorter of the two known common parts on. `key` is the string of an item in
the order of comparison. -/
def searchAmong (read : ℕ → Except Fault (Option UInt8)) (key : Among → Bytes) (v : List Among) :
    ℕ → ℕ → ℕ → ℕ → ℕ → Bool → Except Fault (ℕ × ℕ)
  | 0, _, _, _, _, _ => .error .outOfFuel
  | fuel + 1, i, j, commonI, commonJ, firstKeyInspected => do
      let k := i + (j - i) / 2
      let common := min commonI commonJ
      let w ← item v k
      let (diff, common) ← compareFrom read ((key w).drop common) common
      let (i, j, commonI, commonJ) :=
        if diff < 0 then (i, k, commonI, common) else (k, j, common, commonJ)
      if j - i ≤ 1 then
        if 0 < i ∨ j = i ∨ firstKeyInspected then return (i, commonI)
        searchAmong read key v fuel i j commonI commonJ true
      else searchAmong read key v fuel i j commonI commonJ firstKeyInspected

/-- An item whose string stands at the cursor: pass over it to `c`, and ask its routine,
if it has one, whether to accept it. -/
def Among.attempt (w : Among) (c : ℕ) (z : SnEnv) : Except Fault (Bool × SnEnv) :=
  match w.function with
  | none => .ok (true, { z with c := c })
  | some f => do
      let (res, z) ← f { z with c := c }
      return (res ≠ 0, { z with c := c })

/-- The second loop: from the item found to shorter and shorter ones. `place` is the
cursor behind a string of the given length. -/
def walkAmong (place : ℕ → ℕ) (v : List Among) : ℕ → ℕ → ℕ → Routine
  | 0, _, _, _ => .error .outOfFuel
  | fuel + 1, i, commonI, z => do
      let w ← item v i
      let (accepted, z) ←
        if w.s.length ≤ commonI then w.attempt (place w.s.length) z else pure (false, z)
      if accepted then return (w.result, z)
      if w.substringI < 0 then return (0, z)
      walkAmong place v fuel w.substringI.toNat commonI z

/-- Both loops. -/
def amongAt (read : ℕ → Except Fault (Option UInt8)) (key : Among → Bytes) (place : ℕ → ℕ)
    (v : List Among) : Routine := fun z => do
  let (i, commonI) ← searchAmong read key v (v.length + 2) 0 v.length 0 0 false
  walkAmong place v (v.length + 1) i commonI z

namespace SnEnv

/-- The symbols from the cursor on, up to the limit. A read behind it is a fault. -/
def ahead (z : SnEnv) (common : ℕ) : Except Fault (Option UInt8) :=
  if z.c + common = z.l then .ok none
  else if z.l < z.c + common then .error .outOfBounds
  else (z.symbol (z.c + common)).map some

/-- The symbols before the cursor, backwards down to the limit. A read before it is a
fault. -/
def behind (z : SnEnv) (common : ℕ) : Except Fault (Option UInt8) :=
  if z.c = z.lb + common then .ok none
  else if z.c < z.lb + common then .error .outOfBounds
  else (z.symbol (z.c - 1 - common)).map some

/-- `find_among`. -/
def findAmong (z : SnEnv) (v : List Among) : Except Fault (ℤ × SnEnv) :=
  amongAt z.ahead Among.s (z.c + ·) v z

/-- `find_among_b`. -/
def findAmongB (z : SnEnv) (v : List Among) : Except Fault (ℤ × SnEnv) :=
  amongAt z.behind (fun w => w.s.reverse) (z.c - ·) v z

/-- `[substring]`: the slice is the longest ending of the table, and the rest of the
routine goes by the result of the lookup. -/
def substring (v : List Among) (next : ℤ → Routine) : Routine := fun z => do
  let z := { z with ket := z.c }
  let (amongVar, z) ← z.findAmongB v
  if amongVar = 0 then return (0, z)
  next amongVar { z with bra := z.c }

/-- The look at the last symbol that the compiler puts before a lookup whose endings are
all longer than `n` and end with one of a few symbols. -/
def precheck (n : ℕ) (lasts : List UInt8) (r : Routine) : Routine := fun z => do
  let z := { z with ket := z.c }
  if z.c ≤ z.lb + n then return (0, z)
  let last ← z.symbol (z.c - 1)
  if last ∉ lasts then return (0, z)
  r z

end SnEnv

end SearchTools.Stemmer2
