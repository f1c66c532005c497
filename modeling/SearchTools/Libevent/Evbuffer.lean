/-
# Event buffers

`contrib/libevent/buffer.c`. The bytes of a buffer stand in the middle of a block that
grows as they are added; what is drained is only stepped over. A pointer into the block
is an offset from its start. Sizes are numbers modulo `2 ^ 64`, and memory can be refused.
A callback does not use the buffers itself: of its calls only a log is kept.
-/

import Mathlib.Data.Int.Notation
import Mathlib.Tactic.ByContra
import SearchTools.Library.Memory

namespace SearchTools.Libevent

open SearchTools.Library

/-- `struct evbuffer`, as `calloc` returns it, and the calls its callbacks were given.
A callback stands for the function and its argument. -/
structure Evbuffer (κ : Type) where
  origBuffer : Bytes := []
  buffer : ℕ := 0
  misalign : ℕ := 0
  totallen : ℕ := 0
  off : ℕ := 0
  cb : Option κ := none
  told : List (κ × ℕ × ℕ) := []

/-- A descriptor to read from: what `FIONREAD` says, and what `read` returns for some
room, nothing for an error. -/
structure Reader where
  fionread : Option ℕ
  fionread_lt : ∀ n, fionread = some n → n < 2 ^ 31
  recv : ℕ → Option Bytes
  length_recv : ∀ room data, recv room = some data → data.length ≤ room

/-- A descriptor to write to: how many of the bytes `write` takes. It takes no more than
an `int` can count. -/
structure Writer where
  send : Bytes → Option ℕ
  send_le : ∀ data n, send data = some n → n ≤ data.length
  send_lt : ∀ data n, send data = some n → n < 2 ^ 31

/-- `EVBUFFER_MAX_READ`. -/
def evbufferMaxRead : ℕ := 4096

/-- How much is read at once, at most. -/
def Reader.room (fd : Reader) : ℕ := max evbufferMaxRead (fd.fionread.getD 0)

def isEol (b : UInt8) : Bool := b == 13 || b == 10

/-- `while (length < need) length <<= 1`. After 64 rounds nothing is left of the length. -/
def growLength : ℕ → ℕ → ℕ → Except Fault ℕ
  | 0, need, length => if length < need then .error .outOfFuel else .ok length
  | fuel + 1, need, length =>
    if length < need then growLength fuel need (wrapSize (length <<< 1)) else .ok length

/-- `evutil_vsnprintf`. Without any room its own NUL is written before it, over what stands
there: a fault, whether or not that is in the block. -/
def evutilVsnprintf (block : Bytes) (i space : ℕ) (text : Bytes) : Except Fault Bytes := do
  if space = 0 then .error .outOfBounds
  else
    let block ← writeBlock block i (text.take (space - 1) ++ [0])
    writeBlock block (i + (space - 1)) [0]

/-- `memchr` for the first byte and the loop around it. -/
def findFrom (first : UInt8) (what : Bytes) : Bytes → ℕ → Option ℕ
  | [], _ => none
  | b :: rest, p =>
    if b = first then
      if what.length > rest.length + 1 then none
      else if (b :: rest).take what.length = what then some p
      else findFrom first what rest (p + 1)
    else findFrom first what rest (p + 1)

/-- What is left behind a line, whose end can be two different bytes. -/
def skipEol (fch : UInt8) : Bytes → Bytes
  | [] => []
  | sch :: rest => if isEol sch && sch != fch then rest else sch :: rest

/-- Where the end of a line ends that begins at `i`. -/
def lineEnd (i : ℕ) : Bytes → ℕ
  | fch :: sch :: _ => if isEol sch && sch != fch then i + 1 else i
  | _ => i

/-- The first line and what follows it, when there is a whole line. -/
def firstLine : Bytes → Option (Bytes × Bytes)
  | [] => none
  | b :: rest =>
    if isEol b then some ([], skipEol b rest)
    else (firstLine rest).map fun (line, rest) => (b :: line, rest)

example : firstLine (bytes "ab\r\ncd") = some (bytes "ab", bytes "cd") := by decide

/-- Where bytes occur first. -/
def FirstAt (what data : Bytes) : Option ℕ → Prop
  | none => ∀ i, ¬ what <+: data.drop i
  | some p => what <+: data.drop p ∧ ∀ i < p, ¬ what <+: data.drop i

theorem findFrom_eq_map (first : UInt8) (what data : Bytes) (p : ℕ) :
    findFrom first what data p = (findFrom first what data 0).map (· + p) := by
  induction data generalizing p with
  | nil => rfl
  | cons b rest ih =>
    have hshift : findFrom first what rest (p + 1) =
        (findFrom first what rest (0 + 1)).map (· + p) := by
      rw [ih (p + 1), ih (0 + 1), Option.map_map]
      congr 1
      funext n
      simp only [Function.comp_apply]
      omega
    rw [findFrom, findFrom, hshift]
    by_cases hb : b = first
    · rw [if_pos hb, if_pos hb]
      by_cases hlen : what.length > rest.length + 1
      · rw [if_pos hlen, if_pos hlen]
        rfl
      rw [if_neg hlen, if_neg hlen]
      by_cases hwhat : (b :: rest).take what.length = what
      · rw [if_pos hwhat, if_pos hwhat, Option.map_some, Nat.zero_add]
      · rw [if_neg hwhat, if_neg hwhat]
    · rw [if_neg hb, if_neg hb]

theorem FirstAt.cons {what rest : Bytes} {b : UInt8} {found : Option ℕ}
    (hb : ¬ what <+: b :: rest) (h : FirstAt what rest found) :
    FirstAt what (b :: rest) (found.map (· + 1)) := by
  cases found with
  | none =>
    rintro (_ | i)
    · exact hb
    · exact h i
  | some p =>
    refine ⟨h.1, ?_⟩
    rintro (_ | i) hi
    · exact hb
    · exact h.2 i (Nat.lt_of_succ_lt_succ hi)

theorem firstAt_findFrom (first : UInt8) (what data : Bytes) :
    FirstAt (first :: what) data (findFrom first (first :: what) data 0) := by
  induction data with
  | nil => exact fun i h => List.cons_ne_nil _ _ (List.prefix_nil.mp (List.drop_nil ▸ h))
  | cons b rest ih =>
    rw [findFrom]
    by_cases hb : b = first
    · rw [if_pos hb]
      by_cases hlen : (first :: what).length > rest.length + 1
      · rw [if_pos hlen]
        intro i h
        have := h.length_le
        rw [List.length_drop] at this
        simp only [List.length_cons] at this hlen
        omega
      rw [if_neg hlen]
      by_cases hwhat : (b :: rest).take (first :: what).length = first :: what
      · rw [if_pos hwhat]
        exact ⟨List.prefix_iff_eq_take.mpr hwhat.symm, fun i hi => absurd hi (Nat.not_lt_zero i)⟩
      · rw [if_neg hwhat, findFrom_eq_map]
        exact ih.cons fun h => hwhat (List.prefix_iff_eq_take.mp h).symm
    · rw [if_neg hb, findFrom_eq_map]
      exact ih.cons fun h => hb (List.cons_prefix_cons.mp h).1.symm

/-- The first line, by the place of its end. -/
theorem firstLine_eq (q : Bytes) :
    (q.findIdx isEol = q.length ∧ firstLine q = none) ∨
    (q.findIdx isEol < q.length ∧ ∃ fch rest, q.drop (q.findIdx isEol) = fch :: rest ∧
      firstLine q = some (q.take (q.findIdx isEol), skipEol fch rest)) := by
  induction q with
  | nil => exact Or.inl ⟨rfl, rfl⟩
  | cons b rest ih =>
    rw [firstLine, List.findIdx_cons, List.length_cons]
    cases hb : isEol b with
    | true => exact Or.inr ⟨Nat.succ_pos _, b, rest, rfl, rfl⟩
    | false =>
      rcases ih with ⟨hidx, hnone⟩ | ⟨hidx, fch, after, hdrop, hsome⟩
      · exact Or.inl ⟨congrArg (· + 1) hidx, by rw [hnone]; rfl⟩
      · exact Or.inr ⟨Nat.succ_lt_succ hidx, fch, after, hdrop, by rw [hsome]; rfl⟩

theorem length_lt_of_firstLine {q line rest : Bytes} (h : firstLine q = some (line, rest)) :
    rest.length < q.length := by
  induction q generalizing line with
  | nil => cases h
  | cons b q ih =>
    rw [firstLine] at h
    by_cases hb : isEol b = true
    · rw [if_pos hb] at h
      obtain ⟨-, rfl⟩ := Prod.mk.inj (Option.some.inj h)
      unfold skipEol
      split
      · exact Nat.succ_pos _
      · split <;> simp only [List.length_cons] <;> omega
    · rw [if_neg hb] at h
      obtain ⟨⟨line', rest'⟩, hline, heq⟩ := Option.map_eq_some_iff.mp h
      obtain ⟨-, rfl⟩ := Prod.mk.inj heq
      have := ih hline
      rw [List.length_cons]
      omega

/-- A line with the first byte of its end, and then the second. -/
def CutsEol (q more : Bytes) : Prop :=
  ∃ line fch, q = line ++ [fch] ∧ (∀ b ∈ line, isEol b = false) ∧ isEol fch ∧
    ∃ sch ∈ more.head?, isEol sch ∧ sch ≠ fch

theorem skipEol_append_of_ne_nil (fch : UInt8) {rest : Bytes} (hrest : rest ≠ []) (more : Bytes) :
    skipEol fch (rest ++ more) = skipEol fch rest ++ more := by
  obtain ⟨sch, rest, rfl⟩ := List.exists_cons_of_ne_nil hrest
  rw [List.cons_append, skipEol, skipEol]
  split <;> rfl

theorem skipEol_append {fch : UInt8} (hfch : isEol fch) {rest more : Bytes}
    (h : ¬ CutsEol (fch :: rest) more) : skipEol fch (rest ++ more) = skipEol fch rest ++ more := by
  by_cases hrest : rest = []
  · subst hrest
    cases more with
    | nil => rfl
    | cons sch more =>
      show skipEol fch (sch :: more) = sch :: more
      rw [skipEol, if_neg]
      intro hsch
      rw [Bool.and_eq_true, bne_iff_ne] at hsch
      exact h ⟨[], fch, rfl, fun _ hb => absurd hb List.not_mem_nil, hfch, sch, rfl, hsch⟩
  · exact skipEol_append_of_ne_nil fch hrest more

/-- A line that was found is found in the same way when more stands behind it. -/
theorem firstLine_append {q line rest more : Bytes} (h : firstLine q = some (line, rest))
    (hcut : ¬ CutsEol q more) : firstLine (q ++ more) = some (line, rest ++ more) := by
  induction q generalizing line with
  | nil => cases h
  | cons b q ih =>
    rw [firstLine] at h
    rw [List.cons_append, firstLine]
    by_cases hb : isEol b = true
    · rw [if_pos hb] at h ⊢
      obtain ⟨rfl, rfl⟩ := Prod.mk.inj (Option.some.inj h)
      rw [skipEol_append hb hcut]
    · rw [if_neg hb] at h ⊢
      obtain ⟨⟨line', rest'⟩, hline, heq⟩ := Option.map_eq_some_iff.mp h
      obtain ⟨rfl, rfl⟩ := Prod.mk.inj heq
      rw [ih hline]
      · rfl
      · rintro ⟨start, fch, rfl, hstart, hfch⟩
        exact hcut ⟨b :: start, fch, rfl,
          List.forall_mem_cons.mpr ⟨Bool.eq_false_iff.mpr hb, hstart⟩, hfch⟩

theorem skipEol_suffix (fch : UInt8) (rest : Bytes) : skipEol fch rest <:+ rest := by
  cases rest with
  | nil => exact List.suffix_rfl
  | cons sch rest =>
    rw [skipEol]
    split
    · exact List.suffix_cons sch rest
    · exact List.suffix_rfl

theorem firstLine_suffix {q line rest : Bytes} (h : firstLine q = some (line, rest)) :
    rest <:+ q := by
  induction q generalizing line with
  | nil => cases h
  | cons b q ih =>
    rw [firstLine] at h
    by_cases hb : isEol b = true
    · rw [if_pos hb] at h
      obtain ⟨-, rfl⟩ := Prod.mk.inj (Option.some.inj h)
      exact (skipEol_suffix b q).trans (List.suffix_cons b q)
    · rw [if_neg hb] at h
      obtain ⟨⟨line', rest'⟩, hline, heq⟩ := Option.map_eq_some_iff.mp h
      obtain ⟨-, rfl⟩ := Prod.mk.inj heq
      exact (ih hline).trans (List.suffix_cons b q)

theorem firstLine_eol {line : Bytes} (hline : ∀ b ∈ line, isEol b = false) {fch : UInt8}
    (hfch : isEol fch) (rest : Bytes) :
    firstLine (line ++ fch :: rest) = some (line, skipEol fch rest) := by
  induction line with
  | nil => rw [List.nil_append, firstLine, if_pos hfch]
  | cons b line ih =>
    obtain ⟨hb, hline⟩ := List.forall_mem_cons.mp hline
    rw [List.cons_append, firstLine, hb, if_neg Bool.false_ne_true, ih hline]
    rfl

theorem firstLine_crlf {line : Bytes} (hline : ∀ b ∈ line, isEol b = false) (rest : Bytes) :
    firstLine (line ++ 13 :: 10 :: rest) = some (line, rest) :=
  firstLine_eol hline rfl (10 :: rest)

namespace Evbuffer

variable {κ : Type} (heap : Heap) (buf : Evbuffer κ)

/-- `if (buf->cb != NULL) (*buf->cb)(buf, oldoff, buf->off, buf->cbarg)`. -/
def notify (oldoff : ℕ) : Evbuffer κ :=
  match buf.cb with
  | none => buf
  | some cb => { buf with told := buf.told ++ [(cb, oldoff, buf.off)] }

/-- `evbuffer_align`. -/
def align : Except Fault (Evbuffer κ) := do
  let data ← readBlock buf.origBuffer buf.buffer buf.off
  let block ← writeBlock buf.origBuffer 0 data
  return { buf with origBuffer := block, buffer := 0, misalign := 0 }

/-- `evbuffer_expand`, with its result. -/
def expand (datlen : ℕ) : Except Fault (Evbuffer κ × ℤ) := do
  let need := wrapSize (buf.misalign + buf.off + datlen)
  if buf.totallen ≥ need then .ok (buf, 0)
  else if buf.misalign ≥ datlen then
    let buf ← buf.align
    return (buf, 0)
  else
    let length ← growLength 64 need (if buf.totallen < 256 then 256 else buf.totallen)
    let buf ← (if 0 ≠ buf.buffer then buf.align else .ok buf)
    match heap.realloc buf.origBuffer length with
    | none => return (buf, -1)
    | some newbuf =>
      return ({ buf with origBuffer := newbuf, buffer := 0, totallen := length }, 0)

/-- `memcpy(buf->buffer + buf->off, data, datlen); buf->off += datlen`. -/
def append (data : Bytes) : Except Fault (Evbuffer κ) := do
  let block ← writeBlock buf.origBuffer (buf.buffer + buf.off) data
  return { buf with origBuffer := block, off := buf.off + data.length }

/-- `evbuffer_add`. -/
def add (data : Bytes) : Except Fault (Evbuffer κ × ℤ) := do
  let oldoff := buf.off
  let (buf, res) ← (if buf.totallen < wrapSize (buf.misalign + buf.off + data.length) then
    buf.expand heap data.length else .ok (buf, 0))
  if res = -1 then return (buf, -1)
  else
    let buf ← buf.append data
    return (if data.length ≠ 0 then buf.notify oldoff else buf, 0)

/-- `evbuffer_drain`. -/
def drain (len : ℕ) : Evbuffer κ :=
  let buf' :=
    if len ≥ buf.off then { buf with off := 0, buffer := 0, misalign := 0 }
    else { buf with
      buffer := buf.buffer + len, misalign := buf.misalign + len, off := buf.off - len }
  if buf'.off ≠ buf.off then buf'.notify buf.off else buf'

/-- `SWAP(x, y)`, which assigns to `x` only. -/
def swap (x y : Evbuffer κ) : Evbuffer κ :=
  { x with
    buffer := y.buffer, origBuffer := y.origBuffer, misalign := y.misalign,
    totallen := y.totallen, off := y.off }

/-- `evbuffer_add_buffer`, for two different buffers. -/
def addBuffer (outbuf inbuf : Evbuffer κ) : Except Fault (Evbuffer κ × Evbuffer κ × ℤ) := do
  if outbuf.off = 0 then
    let oldoff := inbuf.off
    let (outbuf, inbuf) := (outbuf.swap inbuf, inbuf.swap outbuf)
    return (if oldoff ≠ 0 then outbuf.notify 0 else outbuf,
      if inbuf.off ≠ oldoff then inbuf.notify oldoff else inbuf, 0)
  else
    let data ← readBlock inbuf.origBuffer inbuf.buffer inbuf.off
    let (outbuf, res) ← outbuf.add heap data
    return (outbuf, if res = 0 then inbuf.drain inbuf.off else inbuf, res)

/-- The loop of `evbuffer_add_vprintf`. A text of more than `INT_MAX` bytes is an error of
`vsnprintf`. -/
def vprintfLoop (text : Bytes) (oldoff : ℕ) :
    ℕ → Evbuffer κ → Except Fault (Evbuffer κ × ℤ)
  | 0, _ => .error .outOfFuel
  | fuel + 1, buf => do
    let used := buf.misalign + buf.off
    -- `assert(buf->totallen >= used)`
    if buf.totallen < used then .error .outOfBounds
    else
      let space := buf.totallen - used
      let block ← evutilVsnprintf buf.origBuffer (buf.buffer + buf.off) space text
      let buf := { buf with origBuffer := block }
      if text.length ≥ 2 ^ 31 then return (buf, -1)
      else if text.length < space then
        return ({ buf with off := buf.off + text.length }.notify oldoff, text.length)
      else
        let (buf, res) ← buf.expand heap (intToSize (wrapInt (text.length + 1)))
        if res = -1 then return (buf, -1)
        else vprintfLoop text oldoff fuel buf

/-- `evbuffer_add_vprintf`, when the format gives `text`. What the first expansion answers
is not looked at. -/
def addVprintf (text : Bytes) : Except Fault (Evbuffer κ × ℤ) := do
  let oldoff := buf.off
  let (buf, _) ← buf.expand heap 64
  buf.vprintfLoop heap text oldoff 2

/-- `evbuffer_remove`. -/
def remove (datlen : ℕ) : Except Fault (Evbuffer κ × Bytes) := do
  let nread := if datlen ≥ buf.off then buf.off else datlen
  let data ← readBlock buf.origBuffer buf.buffer nread
  return (buf.drain nread, data)

/-- `evbuffer_readline`. The index is an `unsigned int`, which never gets to an end of a
line behind `2 ^ 32` other bytes. -/
def readline : Except Fault (Evbuffer κ × Option Bytes) := do
  let data ← readBlock buf.origBuffer buf.buffer buf.off
  let i := data.findIdx isEol
  if i ≥ 2 ^ 32 then .error .outOfFuel
  else if i = buf.off then return (buf, none)
  else
    match heap.malloc (wrapUInt (i + 1)) with
    | none => return (buf.drain i, none)
    | some block => do
      let line := data.take i
      let _ ← writeBlock block 0 (line ++ [0])
      return (buf.drain (wrapUInt (lineEnd i (data.drop i) + 1)), some line)

/-- How much `evbuffer_read` asks for. -/
def readSize (fionread : Option ℕ) (howmuch : ℤ) : ℕ :=
  let n : ℕ :=
    match fionread with
    | none | some 0 => evbufferMaxRead
    | some n =>
      if n > evbufferMaxRead ∧ (n : ℤ) > howmuch then
        let n := if n > wrapSize (buf.totallen <<< 2) then wrapSize (buf.totallen <<< 2) else n
        if n < evbufferMaxRead then evbufferMaxRead else n
      else n
  if howmuch < 0 ∨ howmuch > n then n else howmuch.toNat

/-- `evbuffer_read`. -/
def read (fd : Reader) (howmuch : ℤ) : Except Fault (Evbuffer κ × ℤ) := do
  let oldoff := buf.off
  let howmuch := buf.readSize fd.fionread howmuch
  let (buf, res) ← buf.expand heap howmuch
  if res = -1 then return (buf, -1)
  else
    match fd.recv howmuch with
    | none => return (buf, -1)
    | some [] => return (buf, 0)
    | some data =>
      let buf ← buf.append data
      return (if buf.off ≠ oldoff then buf.notify oldoff else buf, data.length)

/-- `evbuffer_write`, and the bytes that went out. -/
def write (fd : Writer) : Except Fault (Evbuffer κ × ℤ × Bytes) := do
  let data ← readBlock buf.origBuffer buf.buffer buf.off
  match fd.send data with
  | none => return (buf, -1, [])
  | some 0 => return (buf, 0, [])
  | some n => return (buf.drain n, n, data.take n)

/-- `evbuffer_find`: where in the buffer, if at all. -/
def find (what : Bytes) : Except Fault (Option ℕ) := do
  let data ← readBlock buf.origBuffer buf.buffer buf.off
  match what with
  | [] => if buf.off = 0 then return none else .error .outOfBounds
  | first :: _ => return findFrom first what data 0

/-- `evbuffer_setcb`. -/
def setcb (cb : Option κ) : Evbuffer κ := { buf with cb := cb }

/-- The buffer holds the bytes `q`. -/
structure Holds (q : Bytes) : Prop where
  buffer_eq : buf.buffer = buf.misalign
  totallen_eq : buf.totallen = buf.origBuffer.length
  room : buf.misalign + buf.off ≤ buf.totallen
  data_eq : slice buf.origBuffer buf.misalign buf.off = q

/-- The changes of length lead from one length to another. -/
def IsPath : ℕ → List (ℕ × ℕ) → ℕ → Prop
  | start, [], stop => start = stop
  | start, (old, new) :: changes, stop => start = old ∧ IsPath new changes stop

/-- From `buf` to `buf'` the callback, if there is one, was told of every change of the
length, in order. -/
def Tells (buf' : Evbuffer κ) : Prop :=
  buf'.cb = buf.cb ∧ ∃ changes, IsPath buf.off changes buf'.off ∧
    buf'.told = buf.told ++ buf.cb.toList.flatMap fun cb => changes.map (Prod.mk cb)

/-- Only the block changes, and not what is in it. -/
structure Moves (buf' : Evbuffer κ) : Prop where
  off_eq : buf'.off = buf.off
  cb_eq : buf'.cb = buf.cb
  told_eq : buf'.told = buf.told

/-- An expansion: there is room now, unless memory was refused, and the block is not much
larger than that asks for. -/
structure Grows (datlen : ℕ) (buf' : Evbuffer κ) (res : ℤ) : Prop where
  moves : buf.Moves buf'
  totallen_le : buf'.totallen = buf.totallen ∨
    buf'.totallen ≤ max 256 (2 * (buf.off + 2 * datlen))
  room : res = 0 ∧ (buf.misalign + buf.off + datlen < 2 ^ 64 →
      buf'.misalign + buf'.off + datlen ≤ buf'.totallen) ∨
    res = -1 ∧ ¬ heap.GivesAll

/-- The block is not much larger than `n` bytes need. -/
def Within (n : ℕ) : Prop := buf.totallen ≤ 256 + 4 * n

variable {buf} {buf' buf'' : Evbuffer κ} {q : Bytes}

theorem isPath_append {start middle stop : ℕ} {first second : List (ℕ × ℕ)}
    (hfirst : IsPath start first middle) (hsecond : IsPath middle second stop) :
    IsPath start (first ++ second) stop := by
  induction first generalizing start with
  | nil => exact (show start = middle from hfirst) ▸ hsecond
  | cons change first ih => exact ⟨hfirst.1, ih hfirst.2⟩

theorem Moves.refl : Moves buf buf := ⟨rfl, rfl, rfl⟩

theorem Moves.tells (h : buf.Moves buf') : buf.Tells buf' :=
  ⟨h.cb_eq, [], h.off_eq.symm, by cases hcb : buf.cb <;> simp [h.told_eq]⟩

theorem Tells.refl : Tells buf buf := Moves.refl.tells

theorem Tells.trans (h : buf.Tells buf') (h' : buf'.Tells buf'') : buf.Tells buf'' := by
  obtain ⟨hcb, changes, hpath, htold⟩ := h
  obtain ⟨hcb', changes', hpath', htold'⟩ := h'
  refine ⟨hcb'.trans hcb, changes ++ changes', isPath_append hpath hpath', ?_⟩
  rw [htold', htold, hcb, List.append_assoc]
  cases buf.cb with
  | none => rfl
  | some cb => simp only [Option.toList_some, List.flatMap_singleton, List.map_append]

@[simp] theorem notify_off (oldoff : ℕ) : (buf.notify oldoff).off = buf.off := by
  unfold notify
  cases buf.cb <;> rfl

/-- The callback is told of the change. -/
theorem tells_notify (hcb : buf'.cb = buf.cb) (htold : buf'.told = buf.told) :
    buf.Tells (buf'.notify buf.off) := by
  refine ⟨?_, [(buf.off, buf'.off)], ⟨rfl, (notify_off _).symm⟩, ?_⟩
  · unfold notify
    cases hcb' : buf'.cb with
    | none => rw [hcb', ← hcb, hcb']
    | some cb => rw [← hcb, hcb']
  · unfold notify
    rw [← hcb, ← htold]
    cases buf'.cb with
    | none => exact (List.append_nil _).symm
    | some cb => rfl

/-- A change of nothing needs no call. -/
theorem tells_of_notify_if (buf buf' : Evbuffer κ) {p : Prop} [Decidable p]
    (hcb : buf'.cb = buf.cb) (htold : buf'.told = buf.told) (hoff : ¬ p → buf'.off = buf.off) :
    buf.Tells (if p then buf'.notify buf.off else buf') := by
  by_cases hp : p
  · rw [if_pos hp]
    exact tells_notify hcb htold
  · rw [if_neg hp]
    exact Moves.tells ⟨hoff hp, hcb, htold⟩

namespace Holds

theorem length_le (h : buf.Holds q) : buf.misalign + buf.off ≤ buf.origBuffer.length :=
  h.totallen_eq ▸ h.room

theorem off_eq (h : buf.Holds q) : buf.off = q.length := by
  rw [← h.data_eq, length_slice h.length_le]

theorem readBlock_eq (h : buf.Holds q) : readBlock buf.origBuffer buf.buffer buf.off = .ok q := by
  rw [h.buffer_eq, Library.readBlock_eq h.length_le, h.data_eq]

theorem notify (h : buf.Holds q) (oldoff : ℕ) : (buf.notify oldoff).Holds q := by
  unfold Evbuffer.notify
  cases buf.cb with
  | none => exact h
  | some cb => exact ⟨h.buffer_eq, h.totallen_eq, h.room, h.data_eq⟩

theorem notify_if (h : buf.Holds q) (p : Prop) [Decidable p] (oldoff : ℕ) :
    (if p then buf.notify oldoff else buf).Holds q := by
  by_cases hp : p
  · rw [if_pos hp]
    exact h.notify oldoff
  · rwa [if_neg hp]

end Holds

theorem holds_new : Holds ({} : Evbuffer κ) [] := ⟨rfl, rfl, Nat.le_refl 0, rfl⟩

theorem align_spec (h : buf.Holds q) :
    ∃ buf', buf.align = .ok buf' ∧ buf'.Holds q ∧ buf.Moves buf' ∧ buf'.buffer = 0 ∧
      buf'.misalign = 0 ∧ buf'.totallen = buf.totallen := by
  have hlength := h.off_eq
  have hroom := h.length_le
  obtain ⟨block, hwrite, hblock, hslice, -⟩ :=
    writeBlock_spec buf.origBuffer 0 q (by omega)
  refine ⟨{ buf with origBuffer := block, buffer := 0, misalign := 0 }, ?_,
    ⟨rfl, h.totallen_eq.trans hblock.symm, ?_, ?_⟩, ⟨rfl, rfl, rfl⟩, rfl, rfl, rfl⟩
  · rw [align, h.readBlock_eq, ok_bind, hwrite]
    rfl
  · have := h.room
    show 0 + buf.off ≤ buf.totallen
    omega
  · show slice block 0 buf.off = q
    rw [hlength, hslice]

/-- The length is not doubled once too often. -/
theorem growLength_spec {fuel need length length' : ℕ}
    (h : growLength fuel need length = .ok length') :
    need ≤ length' ∧ (length' = length ∨ length' < 2 * need) := by
  have hstop : ¬ length < need → Except.ok length = (Except.ok length' : Except Fault ℕ) →
      need ≤ length' ∧ (length' = length ∨ length' < 2 * need) := by
    rintro hneed heq
    obtain rfl := Except.ok.inj heq
    exact ⟨by omega, Or.inl rfl⟩
  induction fuel generalizing length with
  | zero =>
    by_cases hneed : length < need
    · rw [growLength, if_pos hneed] at h
      cases h
    · rw [growLength, if_neg hneed] at h
      exact hstop hneed h
  | succ fuel ih =>
    by_cases hneed : length < need
    · rw [growLength, if_pos hneed] at h
      have hshift : length <<< 1 = 2 * length := by
        rw [Nat.shiftLeft_eq]
        omega
      have hwrap := wrapSize_le (length <<< 1)
      obtain ⟨hle, hlt⟩ := ih h fun hneed' heq => by
        obtain rfl := Except.ok.inj heq
        exact ⟨by omega, Or.inl rfl⟩
      exact ⟨hle, by omega⟩
    · rw [growLength, if_neg hneed] at h
      exact hstop hneed h

/-- The length is doubled often enough, when there is a length that is enough. -/
theorem growLength_ok (fuel : ℕ) {need length : ℕ} (hneed : need ≤ 2 ^ 63)
    (hfuel : need ≤ length * 2 ^ fuel) : ∃ length', growLength fuel need length = .ok length' := by
  induction fuel generalizing length with
  | zero => exact ⟨length, by rw [growLength, if_neg (by omega)]⟩
  | succ fuel ih =>
    by_cases hlt : length < need
    · have hshift : wrapSize (length <<< 1) = length * 2 := by
        rw [Nat.shiftLeft_eq, Nat.pow_one]
        exact wrapSize_of_lt (by omega)
      have hfuel' : need ≤ length * 2 * 2 ^ fuel := by rwa [Nat.mul_assoc, ← Nat.pow_succ']
      obtain ⟨length', heq⟩ := ih hfuel'
      exact ⟨length', by rw [growLength, if_pos hlt, hshift, heq]⟩
    · exact ⟨length, by rw [growLength, if_neg hlt]⟩

/-- The block is moved to its start, unless it is there already. -/
theorem align_if_spec (h : buf.Holds q) :
    ∃ buf', (if 0 ≠ buf.buffer then buf.align else .ok buf) = .ok buf' ∧ buf'.Holds q ∧
      buf.Moves buf' ∧ buf'.misalign = 0 ∧ buf'.totallen = buf.totallen := by
  by_cases hbuffer : 0 ≠ buf.buffer
  · obtain ⟨buf', halign, hholds, hmoves, -, hmis, htot⟩ := align_spec h
    exact ⟨buf', (if_pos hbuffer).trans halign, hholds, hmoves, hmis, htot⟩
  · exact ⟨buf, if_neg hbuffer, h, .refl, by rw [← h.buffer_eq]; omega, rfl⟩

theorem expand_spec (h : buf.Holds q) {datlen : ℕ} {res : ℤ}
    (hexpand : buf.expand heap datlen = .ok (buf', res)) :
    buf'.Holds q ∧ Grows heap buf datlen buf' res := by
  have hroom := h.room
  have hwrap := wrapSize_le (buf.misalign + buf.off + datlen)
  unfold expand at hexpand
  dsimp only at hexpand
  by_cases hneed : buf.totallen ≥ wrapSize (buf.misalign + buf.off + datlen)
  · rw [if_pos hneed] at hexpand
    obtain ⟨rfl, rfl⟩ := Prod.mk.inj (Except.ok.inj hexpand)
    refine ⟨h, .refl, Or.inl rfl, Or.inl ⟨rfl, fun hlt => ?_⟩⟩
    rwa [wrapSize_of_lt hlt] at hneed
  rw [if_neg hneed] at hexpand
  by_cases hmis : buf.misalign ≥ datlen
  · obtain ⟨buf₁, halign, hholds, hmoves, -, hmis', htot⟩ := align_spec h
    rw [if_pos hmis, halign, ok_bind] at hexpand
    obtain ⟨rfl, rfl⟩ := Prod.mk.inj (Except.ok.inj hexpand)
    refine ⟨hholds, hmoves, Or.inl htot, Or.inl ⟨rfl, fun _ => ?_⟩⟩
    rw [hmis', hmoves.off_eq, htot]
    omega
  obtain ⟨buf₁, hbuf₁, hholds, hmoves, hmis₁, htot₁⟩ := align_if_spec h
  rw [if_neg hmis] at hexpand
  obtain ⟨length, hgrow, hexpand⟩ := bind_eq_ok.mp hexpand
  obtain ⟨hle, hlt⟩ := growLength_spec hgrow
  rw [hbuf₁, ok_bind] at hexpand
  have hoff := hmoves.off_eq
  cases hrealloc : heap.realloc buf₁.origBuffer length with
  | none =>
    rw [hrealloc] at hexpand
    obtain ⟨rfl, rfl⟩ := Prod.mk.inj (Except.ok.inj hexpand)
    exact ⟨hholds, hmoves, Or.inl htot₁, Or.inr ⟨rfl, Heap.not_givesAll_of_realloc hrealloc⟩⟩
  | some newbuf =>
    rw [hrealloc] at hexpand
    obtain ⟨rfl, rfl⟩ := Prod.mk.inj (Except.ok.inj hexpand)
    have hblock := hholds.totallen_eq
    have hnew := Heap.eq_of_realloc hrealloc
    refine ⟨⟨hmis₁.symm, ?_, ?_, ?_⟩, ⟨hmoves.off_eq, hmoves.cb_eq, hmoves.told_eq⟩, Or.inr ?_,
      Or.inl ⟨rfl, fun hsum => ?_⟩⟩
    · rw [hnew]
      exact (heap.toMalloc.length_realloc _ _).symm
    · show buf₁.misalign + buf₁.off ≤ length
      omega
    · show slice newbuf buf₁.misalign buf₁.off = q
      rw [hnew, heap.toMalloc.slice_realloc (by omega) (by omega), hholds.data_eq]
    · show length ≤ max 256 (2 * (buf.off + 2 * datlen))
      split at hlt <;> omega
    · show buf₁.misalign + buf₁.off + datlen ≤ length
      rw [wrapSize_of_lt hsum] at hle
      omega

/-- The expansion ends when what is needed is at most `2 ^ 63`. -/
theorem expand_ok (h : buf.Holds q) (datlen : ℕ)
    (hneed : buf.misalign + buf.off + datlen ≤ 2 ^ 63) :
    ∃ buf' res, buf.expand heap datlen = .ok (buf', res) := by
  have hwrap := wrapSize_le (buf.misalign + buf.off + datlen)
  unfold expand
  dsimp only
  by_cases henough : buf.totallen ≥ wrapSize (buf.misalign + buf.off + datlen)
  · exact ⟨buf, 0, if_pos henough⟩
  rw [if_neg henough]
  by_cases hmis : buf.misalign ≥ datlen
  · obtain ⟨buf₁, halign, -⟩ := align_spec h
    refine ⟨buf₁, 0, ?_⟩
    rw [if_pos hmis, halign]
    rfl
  obtain ⟨buf₁, hbuf₁, -⟩ := align_if_spec h
  obtain ⟨length, hgrow⟩ : ∃ length, growLength 64
      (wrapSize (buf.misalign + buf.off + datlen))
      (if buf.totallen < 256 then 256 else buf.totallen) = .ok length :=
    growLength_ok 64 (Nat.le_trans hwrap hneed) (by split <;> omega)
  rw [if_neg hmis, hgrow, ok_bind, hbuf₁, ok_bind]
  cases heap.realloc buf₁.origBuffer length with
  | none => exact ⟨_, _, rfl⟩
  | some newbuf => exact ⟨_, _, rfl⟩

theorem append_spec {data : Bytes} (h : buf.Holds q) (happend : buf.append data = .ok buf') :
    buf'.Holds (q ++ data) ∧ buf'.off = buf.off + data.length ∧ buf'.cb = buf.cb ∧
      buf'.told = buf.told ∧ buf'.totallen = buf.totallen := by
  have hbuffer := h.buffer_eq
  have htotallen := h.totallen_eq
  obtain ⟨block, hwrite, hbuf'⟩ := bind_eq_ok.mp happend
  obtain rfl := Except.ok.inj hbuf'
  have hroom := le_of_writeBlock hwrite
  obtain ⟨block', hwrite', hblock, hslice, hkept⟩ :=
    writeBlock_spec buf.origBuffer (buf.buffer + buf.off) data hroom
  obtain rfl := Except.ok.inj (hwrite.symm.trans hwrite')
  refine ⟨⟨hbuffer, htotallen.trans hblock.symm, ?_, ?_⟩, rfl, rfl, rfl, rfl⟩
  · show buf.misalign + (buf.off + data.length) ≤ buf.totallen
    omega
  · show slice block buf.misalign (buf.off + data.length) = q ++ data
    rw [slice_add, hkept _ _ (by omega), h.data_eq, ← hbuffer, hslice]

theorem append_ok (h : buf.Holds q) (data : Bytes)
    (hroom : buf.misalign + buf.off + data.length ≤ buf.totallen) :
    ∃ buf', buf.append data = .ok buf' := by
  have hbuffer := h.buffer_eq
  have htotallen := h.totallen_eq
  obtain ⟨block, hwrite, -⟩ :=
    writeBlock_spec buf.origBuffer (buf.buffer + buf.off) data (by omega)
  exact ⟨{ buf with origBuffer := block, off := buf.off + data.length },
    by rw [append, hwrite]; rfl⟩

/-- The expansion at the beginning of `evbuffer_add`. -/
theorem expand_if_spec (h : buf.Holds q) {datlen : ℕ} {res : ℤ}
    (hexpand : (if buf.totallen < wrapSize (buf.misalign + buf.off + datlen) then
      buf.expand heap datlen else .ok (buf, 0)) = .ok (buf', res)) :
    buf'.Holds q ∧ Grows heap buf datlen buf' res := by
  split at hexpand
  next => exact expand_spec heap h hexpand
  next hneed =>
    obtain ⟨rfl, rfl⟩ := Prod.mk.inj (Except.ok.inj hexpand)
    refine ⟨h, .refl, Or.inl rfl, Or.inl ⟨rfl, fun hlt => ?_⟩⟩
    rw [wrapSize_of_lt hlt] at hneed
    exact Nat.le_of_not_lt hneed

theorem Within.mono {n n' : ℕ} (h : buf.Within n) (hn : n ≤ n') : buf.Within n' := by
  unfold Within at h ⊢
  omega

theorem Within.grows {n datlen : ℕ} {res : ℤ} (h : buf.Within n)
    (hgrows : Grows heap buf datlen buf' res) (hfits : buf.off + datlen ≤ n) : buf'.Within n := by
  unfold Within at h ⊢
  rcases hgrows.totallen_le with heq | hle <;> omega

@[simp] theorem notify_totallen (oldoff : ℕ) : (buf.notify oldoff).totallen = buf.totallen := by
  unfold notify
  cases buf.cb <;> rfl

theorem Within.notify_if (buf : Evbuffer κ) {n : ℕ} (h : buf.Within n) (p : Prop) [Decidable p]
    (oldoff : ℕ) : (if p then buf.notify oldoff else buf).Within n := by
  by_cases hp : p
  · rw [if_pos hp, Within, notify_totallen]
    exact h
  · rwa [if_neg hp]

/-- An expansion in a buffer that is not too large. -/
theorem expand_within (h : buf.Holds q) (datlen : ℕ) {n : ℕ} (hwithin : buf.Within n)
    (hfits : q.length + datlen ≤ n) (hn : n ≤ 2 ^ 60) :
    ∃ buf' res, buf.expand heap datlen = .ok (buf', res) ∧ buf'.Holds q ∧
      Grows heap buf datlen buf' res ∧ buf'.Within n ∧
      (res = 0 → buf'.misalign + buf'.off + datlen ≤ buf'.totallen) := by
  have hroom := h.room
  have hoff := h.off_eq
  have htot : buf.totallen ≤ 256 + 4 * n := hwithin
  obtain ⟨buf', res, hexpand⟩ := expand_ok heap h datlen (by omega)
  obtain ⟨hholds, hgrows⟩ := expand_spec heap h hexpand
  refine ⟨buf', res, hexpand, hholds, hgrows, hwithin.grows heap hgrows (by omega), fun hres => ?_⟩
  rcases hgrows.room with ⟨-, henough⟩ | ⟨hres', -⟩
  · exact henough (by omega)
  · omega

/-- The bytes are added, or memory was refused. -/
theorem add_spec (h : buf.Holds q) {data : Bytes} {res : ℤ}
    (hadd : buf.add heap data = .ok (buf', res)) :
    buf.Tells buf' ∧ (res = 0 ∧ buf'.Holds (q ++ data) ∨
      res = -1 ∧ buf'.Holds q ∧ ¬ heap.GivesAll) := by
  obtain ⟨⟨buf₁, res₁⟩, hexpand, hadd⟩ := bind_eq_ok.mp hadd
  obtain ⟨hholds, hgrows⟩ := expand_if_spec heap h hexpand
  have hmoves := hgrows.moves
  dsimp only at hadd
  rcases hgrows.room with ⟨rfl, -⟩ | ⟨rfl, hrefused⟩
  · obtain ⟨buf₂, happend, hadd⟩ := bind_eq_ok.mp hadd
    obtain ⟨rfl, rfl⟩ := Prod.mk.inj (Except.ok.inj hadd)
    obtain ⟨hholds₂, hoff₂, hcb₂, htold₂, -⟩ := append_spec hholds happend
    refine ⟨tells_of_notify_if buf buf₂ (hcb₂.trans hmoves.cb_eq) (htold₂.trans hmoves.told_eq)
      fun hdata => ?_, Or.inl ⟨rfl, hholds₂.notify_if _ _⟩⟩
    rw [hoff₂, hmoves.off_eq]
    omega
  · obtain ⟨rfl, rfl⟩ := Prod.mk.inj (Except.ok.inj hadd)
    exact ⟨hmoves.tells, Or.inr ⟨rfl, hholds, hrefused⟩⟩

theorem add_ok (h : buf.Holds q) {n : ℕ} (hwithin : buf.Within n) (data : Bytes)
    (hfits : q.length + data.length ≤ n) (hn : n ≤ 2 ^ 60) :
    ∃ buf' res, buf.add heap data = .ok (buf', res) ∧ buf'.Within n := by
  have hroom := h.room
  have hoff := h.off_eq
  have htot : buf.totallen ≤ 256 + 4 * n := hwithin
  obtain ⟨buf₁, res, hexpand, hholds, hgrows, hwithin₁⟩ : ∃ buf₁ res,
      (if buf.totallen < wrapSize (buf.misalign + buf.off + data.length) then
        buf.expand heap data.length else .ok (buf, 0)) = .ok (buf₁, res) ∧ buf₁.Holds q ∧
      Grows heap buf data.length buf₁ res ∧ buf₁.Within n := by
    by_cases hneed : buf.totallen < wrapSize (buf.misalign + buf.off + data.length)
    · obtain ⟨buf₁, res, hexpand, hholds, hgrows, hwithin₁, -⟩ :=
        expand_within heap h data.length hwithin hfits hn
      exact ⟨buf₁, res, (if_pos hneed).trans hexpand, hholds, hgrows, hwithin₁⟩
    · obtain ⟨hholds, hgrows⟩ := expand_if_spec heap h (if_neg hneed)
      exact ⟨buf, 0, if_neg hneed, hholds, hgrows, hwithin⟩
  unfold add
  rw [hexpand, ok_bind]
  dsimp only
  rcases hgrows.room with ⟨rfl, henough⟩ | ⟨rfl, -⟩
  · obtain ⟨buf₂, happend⟩ := append_ok hholds data (henough (by omega))
    obtain ⟨-, -, -, -, htot₂⟩ := append_spec hholds happend
    refine ⟨_, 0, by rw [if_neg (by decide), happend]; rfl, Within.notify_if _ ?_ _ _⟩
    rw [Within, htot₂]
    exact hwithin₁
  · exact ⟨buf₁, -1, rfl, hwithin₁⟩

/-- `if (buf->off != oldoff && buf->cb != NULL)`, and the call. -/
theorem notify_spec (buf buf' : Evbuffer κ) (h : buf'.Holds q) (hcb : buf'.cb = buf.cb)
    (htold : buf'.told = buf.told) :
    (if buf'.off ≠ buf.off then buf'.notify buf.off else buf').Holds q ∧
      buf.Tells (if buf'.off ≠ buf.off then buf'.notify buf.off else buf') :=
  ⟨h.notify_if _ _, tells_of_notify_if _ _ hcb htold fun hsame => Decidable.not_not.mp hsame⟩

theorem drain_spec (h : buf.Holds q) (len : ℕ) :
    (buf.drain len).Holds (q.drop len) ∧ buf.Tells (buf.drain len) := by
  have hoff := h.off_eq
  have hroom := h.room
  unfold drain
  by_cases hlen : len ≥ buf.off
  · rw [if_pos hlen]
    refine notify_spec buf { buf with off := 0, buffer := 0, misalign := 0 }
      ⟨rfl, h.totallen_eq, Nat.zero_le _, ?_⟩ rfl rfl
    rw [List.drop_eq_nil_of_le (by omega)]
    exact slice_zero
  · rw [if_neg hlen]
    refine notify_spec buf { buf with
      buffer := buf.buffer + len, misalign := buf.misalign + len, off := buf.off - len }
      ⟨congrArg (· + len) h.buffer_eq, h.totallen_eq, ?_, ?_⟩ rfl rfl
    · show buf.misalign + len + (buf.off - len) ≤ buf.totallen
      omega
    · show slice buf.origBuffer (buf.misalign + len) (buf.off - len) = q.drop len
      rw [← drop_slice, h.data_eq]

@[simp] theorem drain_totallen (len : ℕ) : (buf.drain len).totallen = buf.totallen := by
  unfold drain
  by_cases hlen : len ≥ buf.off
  · rw [if_pos hlen]
    dsimp only
    split <;> simp only [notify_totallen]
  · rw [if_neg hlen]
    dsimp only
    split <;> simp only [notify_totallen]

theorem swap_spec {other : Evbuffer κ} (h : other.Holds q) : (buf.swap other).Holds q :=
  ⟨h.buffer_eq, h.totallen_eq, h.room, h.data_eq⟩

/-- The bytes move from one buffer to the other, copied or not, or memory was refused. -/
theorem addBuffer_spec {outbuf inbuf outbuf' inbuf' : Evbuffer κ} {out inp : Bytes} {res : ℤ}
    (hout : outbuf.Holds out) (hin : inbuf.Holds inp)
    (hadd : addBuffer heap outbuf inbuf = .ok (outbuf', inbuf', res)) :
    outbuf.Tells outbuf' ∧ inbuf.Tells inbuf' ∧
      (res = 0 ∧ outbuf'.Holds (out ++ inp) ∧ inbuf'.Holds [] ∨
        res = -1 ∧ outbuf'.Holds out ∧ inbuf'.Holds inp ∧ ¬ heap.GivesAll) := by
  unfold addBuffer at hadd
  by_cases hoff : outbuf.off = 0
  · have hnil : out = [] := List.length_eq_zero_iff.mp (hout.off_eq ▸ hoff)
    subst hnil
    rw [if_pos hoff] at hadd
    obtain ⟨rfl, hpair⟩ := Prod.mk.inj (Except.ok.inj hadd)
    obtain ⟨rfl, rfl⟩ := Prod.mk.inj hpair
    refine ⟨?_, (notify_spec inbuf (inbuf.swap outbuf) (swap_spec hout) rfl rfl).2,
      Or.inl ⟨rfl, (swap_spec hin).notify_if _ _, (swap_spec hout).notify_if _ _⟩⟩
    have htells := tells_of_notify_if outbuf (outbuf.swap inbuf)
      (p := inbuf.off ≠ 0) rfl rfl fun hzero => (Decidable.not_not.mp hzero).trans hoff.symm
    rwa [hoff] at htells
  · rw [if_neg hoff, hin.readBlock_eq, ok_bind] at hadd
    obtain ⟨⟨buf₁, res₁⟩, hbuf₁, hadd⟩ := bind_eq_ok.mp hadd
    obtain ⟨rfl, hpair⟩ := Prod.mk.inj (Except.ok.inj hadd)
    obtain ⟨rfl, rfl⟩ := Prod.mk.inj hpair
    obtain ⟨htells, hadded⟩ := add_spec heap hout hbuf₁
    obtain ⟨hdrain, hdrains⟩ := drain_spec hin inbuf.off
    rcases hadded with ⟨rfl, hholds⟩ | ⟨rfl, hholds, hrefused⟩
    · rw [List.drop_eq_nil_of_le (Nat.le_of_eq hin.off_eq.symm)] at hdrain
      exact ⟨htells, hdrains, Or.inl ⟨rfl, hholds, hdrain⟩⟩
    · exact ⟨htells, .refl, Or.inr ⟨rfl, hholds, hin, hrefused⟩⟩

theorem addBuffer_ok {outbuf inbuf : Evbuffer κ} {out inp : Bytes} (hout : outbuf.Holds out)
    (hin : inbuf.Holds inp) {n : ℕ} (houtWithin : outbuf.Within n) (hinWithin : inbuf.Within n)
    (hfits : out.length + inp.length ≤ n) (hn : n ≤ 2 ^ 60) :
    ∃ outbuf' inbuf' res, addBuffer heap outbuf inbuf = .ok (outbuf', inbuf', res) ∧
      outbuf'.Within n ∧ inbuf'.Within n := by
  unfold addBuffer
  by_cases hoff : outbuf.off = 0
  · rw [if_pos hoff]
    exact ⟨_, _, 0, rfl, Within.notify_if (outbuf.swap inbuf) hinWithin _ _,
      Within.notify_if (inbuf.swap outbuf) houtWithin _ _⟩
  · obtain ⟨buf₁, res, hadd, hwithin₁⟩ := add_ok heap hout houtWithin inp hfits hn
    rw [if_neg hoff, hin.readBlock_eq, ok_bind, hadd, ok_bind]
    refine ⟨buf₁, _, res, rfl, hwithin₁, ?_⟩
    by_cases hres : res = 0
    · rw [if_pos hres, Within, drain_totallen]
      exact hinWithin
    · rwa [if_neg hres]

/-- A text is written behind what is there, cut to the room for it. -/
theorem evutilVsnprintf_spec (block : Bytes) (i space : ℕ) (text : Bytes) (hspace : 0 < space)
    (hroom : i + space ≤ block.length) :
    ∃ block', evutilVsnprintf block i space text = .ok block' ∧
      block'.length = block.length ∧
      (∀ a m, a + m ≤ i → slice block' a m = slice block a m) ∧
      (text.length < space → slice block' i text.length = text) := by
  have hcut : (text.take (space - 1)).length = min (space - 1) text.length :=
    List.length_take
  have hdata : (text.take (space - 1) ++ [0]).length = min (space - 1) text.length + 1 := by
    rw [List.length_append, hcut]
    rfl
  obtain ⟨block₁, hwrite₁, hlen₁, hslice₁, hkept₁⟩ := writeBlock_spec block i
    (text.take (space - 1) ++ [0]) (by omega)
  have hlast : i + (space - 1) + [(0 : UInt8)].length ≤ block₁.length := by
    rw [List.length_singleton]
    omega
  obtain ⟨block₂, hwrite₂, hlen₂, -, hkept₂⟩ := writeBlock_spec _ _ _ hlast
  refine ⟨block₂, ?_, hlen₂.trans hlen₁, fun a m ham => ?_, fun htext => ?_⟩
  · unfold evutilVsnprintf
    rw [if_neg (by omega), hwrite₁, ok_bind, hwrite₂]
  · rw [hkept₂ a m (by omega), hkept₁ a m ham]
  · have htake : text.take (space - 1) = text := List.take_of_length_le (by omega)
    rw [htake, List.length_append] at hslice₁
    rw [hkept₂ i text.length (by omega),
      ← take_slice (n := text.length + [(0 : UInt8)].length) (by omega), hslice₁, List.take_left]

/-- Formatting into the room behind the bytes leaves them as they are. -/
theorem holds_vsnprintf (h : buf.Holds q) (text : Bytes)
    (hspace : buf.misalign + buf.off < buf.totallen) :
    ∃ block, evutilVsnprintf buf.origBuffer (buf.buffer + buf.off)
        (buf.totallen - (buf.misalign + buf.off)) text = .ok block ∧
      Holds { buf with origBuffer := block } q ∧
      (text.length < buf.totallen - (buf.misalign + buf.off) →
        Holds { buf with origBuffer := block, off := buf.off + text.length } (q ++ text)) := by
  have hbuffer := h.buffer_eq
  have htotallen := h.totallen_eq
  obtain ⟨block, hwrite, hblock, hkept, hslice⟩ :=
    evutilVsnprintf_spec buf.origBuffer (buf.buffer + buf.off)
      (buf.totallen - (buf.misalign + buf.off)) text (by omega) (by omega)
  have hdata : slice block buf.misalign buf.off = q := by
    rw [hkept _ _ (by omega), h.data_eq]
  refine ⟨block, hwrite, ⟨hbuffer, htotallen.trans hblock.symm, h.room, hdata⟩, fun htext =>
    ⟨hbuffer, htotallen.trans hblock.symm, ?_, ?_⟩⟩
  · show buf.misalign + (buf.off + text.length) ≤ buf.totallen
    omega
  · show slice block buf.misalign (buf.off + text.length) = q ++ text
    rw [slice_add, hdata, ← hbuffer, hslice htext]

theorem space_pos_of_vsnprintf {block block' text : Bytes} {i space : ℕ}
    (h : evutilVsnprintf block i space text = .ok block') : 0 < space := by
  by_contra hspace
  rw [evutilVsnprintf, if_pos (Nat.eq_zero_of_not_pos hspace)] at h
  cases h

/-- The text is added, or it was too long, or memory was refused. -/
theorem vprintfLoop_spec {text : Bytes} (fuel : ℕ) (h : buf.Holds q) {res : ℤ}
    (hloop : vprintfLoop heap text buf.off fuel buf = .ok (buf', res)) :
    buf.Tells buf' ∧ (res = text.length ∧ buf'.Holds (q ++ text) ∧ text.length < 2 ^ 31 ∨
      res = -1 ∧ buf'.Holds q ∧ (2 ^ 31 ≤ text.length ∨ ¬ heap.GivesAll)) := by
  obtain ⟨oldoff, hoff⟩ : ∃ oldoff, oldoff = buf.off := ⟨_, rfl⟩
  rw [← hoff] at hloop
  induction fuel generalizing buf with
  | zero => cases hloop
  | succ fuel ih =>
    have hroom := h.room
    rw [vprintfLoop, if_neg (by omega)] at hloop
    obtain ⟨block, hwrite, hloop⟩ := bind_eq_ok.mp hloop
    have hspace := space_pos_of_vsnprintf hwrite
    obtain ⟨block', hwrite', hholds, hadded⟩ := holds_vsnprintf h text (by omega)
    obtain rfl := Except.ok.inj (hwrite.symm.trans hwrite')
    by_cases hlong : text.length ≥ 2 ^ 31
    · rw [if_pos hlong] at hloop
      obtain ⟨rfl, rfl⟩ := Prod.mk.inj (Except.ok.inj hloop)
      exact ⟨Moves.tells ⟨rfl, rfl, rfl⟩, Or.inr ⟨rfl, hholds, Or.inl hlong⟩⟩
    rw [if_neg hlong] at hloop
    by_cases hfits : text.length < buf.totallen - (buf.misalign + buf.off)
    · rw [if_pos hfits] at hloop
      obtain ⟨rfl, rfl⟩ := Prod.mk.inj (Except.ok.inj hloop)
      rw [hoff]
      exact ⟨tells_notify rfl rfl,
        Or.inl ⟨rfl, (hadded hfits).notify buf.off, Nat.lt_of_not_le hlong⟩⟩
    · rw [if_neg hfits] at hloop
      obtain ⟨⟨buf₁, res₁⟩, hexpand, hloop⟩ := bind_eq_ok.mp hloop
      obtain ⟨hholds₁, hgrows⟩ := expand_spec heap hholds hexpand
      have hmoves : buf.Moves buf₁ :=
        ⟨hgrows.moves.off_eq, hgrows.moves.cb_eq, hgrows.moves.told_eq⟩
      dsimp only at hloop
      rcases hgrows.room with ⟨rfl, -⟩ | ⟨rfl, hrefused⟩
      · obtain ⟨htells, hends⟩ := ih hholds₁ hloop (hoff.trans hmoves.off_eq.symm)
        exact ⟨hmoves.tells.trans htells, hends⟩
      · obtain ⟨rfl, rfl⟩ := Prod.mk.inj (Except.ok.inj hloop)
        exact ⟨hmoves.tells, Or.inr ⟨rfl, hholds₁, Or.inr hrefused⟩⟩

theorem addVprintf_spec (h : buf.Holds q) {text : Bytes} {res : ℤ}
    (hadd : buf.addVprintf heap text = .ok (buf', res)) :
    buf.Tells buf' ∧ (res = text.length ∧ buf'.Holds (q ++ text) ∧ text.length < 2 ^ 31 ∨
      res = -1 ∧ buf'.Holds q ∧ (2 ^ 31 ≤ text.length ∨ ¬ heap.GivesAll)) := by
  obtain ⟨⟨buf₁, res₁⟩, hexpand, hadd⟩ := bind_eq_ok.mp hadd
  obtain ⟨hholds, hgrows⟩ := expand_spec heap h hexpand
  dsimp only at hadd
  rw [← hgrows.moves.off_eq] at hadd
  obtain ⟨htells, hends⟩ := vprintfLoop_spec heap 2 hholds hadd
  exact ⟨hgrows.moves.tells.trans htells, hends⟩

theorem vprintfLoop_fits (h : buf.Holds q) (text : Bytes) (oldoff fuel : ℕ)
    (hspace : buf.misalign + buf.off + text.length < buf.totallen) (htext : text.length < 2 ^ 31) :
    ∃ buf' res, vprintfLoop heap text oldoff (fuel + 1) buf = .ok (buf', res) ∧
      buf'.totallen = buf.totallen := by
  obtain ⟨block, hwrite, -⟩ := holds_vsnprintf h text (by omega)
  let buf₁ : Evbuffer κ := { buf with origBuffer := block, off := buf.off + text.length }
  refine ⟨buf₁.notify oldoff, text.length, ?_, notify_totallen _⟩
  rw [vprintfLoop, if_neg (by omega)]
  dsimp only
  rw [hwrite, ok_bind, if_neg (by omega), if_pos (by omega)]
  rfl

/-- With memory the text is formatted at most twice. -/
theorem addVprintf_ok (hgives : heap.GivesAll) (h : buf.Holds q) {n : ℕ} (hwithin : buf.Within n)
    (text : Bytes) (htext : text.length + 1 < 2 ^ 31) (hfits : q.length + (text.length + 64) ≤ n)
    (hn : n ≤ 2 ^ 60) :
    ∃ buf' res, buf.addVprintf heap text = .ok (buf', res) ∧ buf'.Within n := by
  obtain ⟨buf₁, res₁, hexpand, hholds₁, hgrows₁, hwithin₁, henough₁⟩ :=
    expand_within heap h 64 hwithin (by omega) hn
  have hroom₁ := henough₁ (hgrows₁.room.elim (·.1) fun hrefused => absurd hgives hrefused.2)
  unfold addVprintf
  rw [hexpand, ok_bind]
  dsimp only
  by_cases hspace : buf₁.misalign + buf₁.off + text.length < buf₁.totallen
  · obtain ⟨buf₂, res, hloop, htot⟩ :=
      vprintfLoop_fits heap hholds₁ text buf.off 1 hspace (by omega)
    exact ⟨buf₂, res, hloop, by rw [Within, htot]; exact hwithin₁⟩
  · obtain ⟨block, hwrite, hholds, -⟩ := holds_vsnprintf hholds₁ text (by omega)
    have hlength : intToSize (wrapInt (text.length + 1)) = text.length + 1 := by
      rw [wrapInt_of_lt (by omega) (by omega)]
      exact intToSize_natCast (n := text.length + 1) (by omega)
    obtain ⟨buf₂, res₂, hexpand₂, hholds₂, hgrows₂, hwithin₂, henough₂⟩ :=
      expand_within heap hholds (text.length + 1) hwithin₁ (by omega) hn
    obtain rfl : res₂ = 0 := hgrows₂.room.elim (·.1) fun hrefused => absurd hgives hrefused.2
    have hroom₂ := henough₂ rfl
    obtain ⟨buf₃, res, hloop, htot⟩ :=
      vprintfLoop_fits heap hholds₂ text buf.off 0 (by omega) (by omega)
    refine ⟨buf₃, res, ?_, by rw [Within, htot]; exact hwithin₂⟩
    rw [vprintfLoop, if_neg (by omega)]
    dsimp only
    rw [hwrite, ok_bind, if_neg (by omega), if_neg (by omega), hlength, hexpand₂, ok_bind]
    exact hloop

theorem remove_spec (h : buf.Holds q) (datlen : ℕ) :
    ∃ buf', buf.remove datlen = .ok (buf', q.take datlen) ∧ buf'.Holds (q.drop datlen) ∧
      buf.Tells buf' ∧ buf'.totallen = buf.totallen := by
  have hoff := h.off_eq
  have hnread : (if datlen ≥ buf.off then buf.off else datlen) = min datlen buf.off := by
    split <;> omega
  have hread : readBlock buf.origBuffer buf.buffer (min datlen buf.off) =
      .ok (q.take datlen) := by
    have hlen := h.length_le
    rw [h.buffer_eq, readBlock_eq (by omega), ← take_slice (n := buf.off) (by omega), h.data_eq,
      hoff, ← List.take_eq_take_min]
  have hdrop : q.drop (min datlen buf.off) = q.drop datlen := by
    rw [hoff, ← List.drop_eq_drop_min]
  obtain ⟨hdrain, htells⟩ := drain_spec h (min datlen buf.off)
  refine ⟨buf.drain (min datlen buf.off), ?_, hdrop ▸ hdrain, htells, drain_totallen _⟩
  unfold remove
  rw [hnread]
  dsimp only
  rw [hread]
  rfl

/-- A line is drained with its end, unless the count of the bytes wraps. -/
theorem wrapUInt_lineEnd {i : ℕ} {fch : UInt8} {rest : Bytes} (hi : i + 1 < 2 ^ 32) :
    (i + 2 = 2 ^ 32 ∧ wrapUInt (lineEnd i (fch :: rest) + 1) = 0) ∨
    ∃ n, wrapUInt (lineEnd i (fch :: rest) + 1) = i + 1 + n ∧
      rest.drop n = skipEol fch rest := by
  cases rest with
  | nil => exact Or.inr ⟨0, wrapUInt_of_lt hi, rfl⟩
  | cons sch rest =>
    rw [lineEnd, skipEol]
    cases htwo : isEol sch && sch != fch with
    | false => exact Or.inr ⟨0, wrapUInt_of_lt hi, rfl⟩
    | true =>
      rw [if_pos rfl, if_pos rfl]
      by_cases hwrap : i + 2 = 2 ^ 32
      · exact Or.inl ⟨hwrap, by rw [hwrap, wrapUInt, Nat.mod_self]⟩
      · exact Or.inr ⟨1, wrapUInt_of_lt (by omega), rfl⟩

/-- A line is taken with its end, or the buffer stays as it is. Without memory for a line it
is dropped, and its end stays. The end of a line of `2 ^ 32 - 2` bytes can stay too. -/
theorem readline_spec (h : buf.Holds q) {line : Option Bytes}
    (hreadline : buf.readline heap = .ok (buf', line)) :
    buf.Tells buf' ∧ buf'.totallen = buf.totallen ∧
      (firstLine q = none ∧ line = none ∧ buf'.Holds q ∨
        ∃ first rest, firstLine q = some (first, rest) ∧
          (line = some first ∧ (buf'.Holds rest ∨ first.length + 2 = 2 ^ 32 ∧ buf'.Holds q) ∨
            line = none ∧ buf'.Holds (q.drop first.length) ∧ ¬ heap.GivesAll)) := by
  have hoff := h.off_eq
  unfold readline at hreadline
  rw [h.readBlock_eq, ok_bind] at hreadline
  dsimp only at hreadline
  by_cases hlong : q.findIdx isEol ≥ 2 ^ 32
  · rw [if_pos hlong] at hreadline
    cases hreadline
  rw [if_neg hlong] at hreadline
  rcases firstLine_eq q with ⟨hidx, hnone⟩ | ⟨hidx, fch, rest, hdrop, hsome⟩
  · rw [if_pos (hidx.trans hoff.symm)] at hreadline
    obtain ⟨rfl, rfl⟩ := Prod.mk.inj (Except.ok.inj hreadline)
    exact ⟨.refl, rfl, Or.inl ⟨hnone, rfl, h⟩⟩
  have hlength : (q.take (q.findIdx isEol)).length = q.findIdx isEol :=
    List.length_take_of_le (Nat.le_of_lt hidx)
  have hdrain := fun n => drain_spec h n
  rw [if_neg (by omega)] at hreadline
  cases hmalloc : heap.malloc (wrapUInt (q.findIdx isEol + 1)) with
  | none =>
    rw [hmalloc] at hreadline
    obtain ⟨rfl, rfl⟩ := Prod.mk.inj (Except.ok.inj hreadline)
    refine ⟨(hdrain _).2, drain_totallen _, Or.inr ⟨_, _, hsome, Or.inr ⟨rfl, ?_, ?_⟩⟩⟩
    · rw [hlength]
      exact (hdrain _).1
    · exact Heap.not_givesAll_of_realloc hmalloc
  | some block =>
    rw [hmalloc] at hreadline
    obtain ⟨block', hwrite, hreadline⟩ := bind_eq_ok.mp hreadline
    have hroom := le_of_writeBlock hwrite
    rw [Heap.length_of_malloc hmalloc, List.length_append, hlength, List.length_singleton]
      at hroom
    have hi : q.findIdx isEol + 1 < 2 ^ 32 := by
      have hmod : wrapUInt (q.findIdx isEol + 1) < 2 ^ 32 := Nat.mod_lt _ (by decide)
      omega
    rw [hdrop] at hreadline
    obtain ⟨rfl, rfl⟩ := Prod.mk.inj (Except.ok.inj hreadline)
    refine ⟨(hdrain _).2, drain_totallen _, Or.inr ⟨_, _, hsome, Or.inl ⟨rfl, ?_⟩⟩⟩
    rcases @wrapUInt_lineEnd _ fch rest hi with ⟨hwrap, hzero⟩ | ⟨n, hcount, hrest⟩
    · refine Or.inr ⟨by rw [hlength, hwrap], ?_⟩
      rw [hzero]
      exact (hdrain 0).1
    · have hafter : q.drop (q.findIdx isEol + 1 + n) = skipEol fch rest := by
        rw [← hrest, ← List.drop_drop, ← List.drop_drop, hdrop]
        rfl
      rw [hcount, ← hafter]
      exact Or.inl (hdrain _).1

/-- A line is found in a buffer that is not too large. -/
theorem readline_ok (h : buf.Holds q) (hq : q.length < 2 ^ 32) :
    ∃ buf' line, buf.readline heap = .ok (buf', line) := by
  have hoff := h.off_eq
  have hle : q.findIdx isEol ≤ q.length := List.findIdx_le_length
  unfold readline
  rw [h.readBlock_eq, ok_bind]
  dsimp only
  rw [if_neg (by omega)]
  by_cases hidx : q.findIdx isEol = buf.off
  · exact ⟨buf, none, if_pos hidx⟩
  rw [if_neg hidx]
  cases hmalloc : heap.malloc (wrapUInt (q.findIdx isEol + 1)) with
  | none => exact ⟨_, _, rfl⟩
  | some block =>
    have hblock := Heap.length_of_malloc hmalloc
    rw [wrapUInt_of_lt (by omega)] at hblock
    have hfits : 0 + (q.take (q.findIdx isEol) ++ [0]).length ≤ block.length := by
      rw [List.length_append, List.length_take_of_le hle, List.length_singleton]
      omega
    obtain ⟨block', hwrite, -⟩ := writeBlock_spec block 0 _ hfits
    dsimp only
    rw [hwrite]
    exact ⟨_, _, rfl⟩

theorem readSize_le {fionread : Option ℕ} {howmuch : ℤ} (h : 0 ≤ howmuch) :
    (buf.readSize fionread howmuch : ℤ) ≤ howmuch := by
  unfold readSize
  generalize (match fionread with
    | none | some 0 => evbufferMaxRead
    | some n =>
      if n > evbufferMaxRead ∧ (n : ℤ) > howmuch then
        let n := if n > wrapSize (buf.totallen <<< 2) then wrapSize (buf.totallen <<< 2) else n
        if n < evbufferMaxRead then evbufferMaxRead else n
      else n : ℕ) = n
  dsimp only
  split <;> omega

theorem readSize_le_room (buf : Evbuffer κ) (fd : Reader) (howmuch : ℤ) :
    buf.readSize fd.fionread howmuch ≤ fd.room := by
  unfold readSize Reader.room
  dsimp only
  split
  next => split <;> omega
  next => split <;> omega
  next n _ hfionread =>
    rw [hfionread, Option.getD_some]
    (repeat' split) <;> omega

/-- What is read goes behind what is there. -/
theorem read_spec (h : buf.Holds q) (fd : Reader) (howmuch : ℤ) {res : ℤ}
    (hread : buf.read heap fd howmuch = .ok (buf', res)) :
    buf.Tells buf' ∧
      (res = -1 ∧ buf'.Holds q ∧ (fd.recv (buf.readSize fd.fionread howmuch) = none ∨
        ¬ heap.GivesAll) ∨
      ∃ data, fd.recv (buf.readSize fd.fionread howmuch) = some data ∧ res = data.length ∧
        buf'.Holds (q ++ data)) := by
  obtain ⟨⟨buf₁, res₁⟩, hexpand, hread⟩ := bind_eq_ok.mp hread
  obtain ⟨hholds₁, hgrows⟩ := expand_spec heap h hexpand
  have hmoves₁ := hgrows.moves
  dsimp only at hread
  rcases hgrows.room with ⟨rfl, -⟩ | ⟨rfl, hrefused⟩
  · rw [if_neg (by decide)] at hread
    cases hrecv : fd.recv (buf.readSize fd.fionread howmuch) with
    | none =>
      rw [hrecv] at hread
      obtain ⟨rfl, rfl⟩ := Prod.mk.inj (Except.ok.inj hread)
      exact ⟨hmoves₁.tells, Or.inl ⟨rfl, hholds₁, Or.inl rfl⟩⟩
    | some data =>
      rw [hrecv] at hread
      cases data with
      | nil =>
        obtain ⟨rfl, rfl⟩ := Prod.mk.inj (Except.ok.inj hread)
        exact ⟨hmoves₁.tells, Or.inr ⟨[], rfl, rfl, (List.append_nil q).symm ▸ hholds₁⟩⟩
      | cons b data =>
        obtain ⟨buf₂, happend, hread⟩ := bind_eq_ok.mp hread
        obtain ⟨rfl, rfl⟩ := Prod.mk.inj (Except.ok.inj hread)
        obtain ⟨hholds₂, hoff₂, hcb₂, htold₂, -⟩ := append_spec hholds₁ happend
        obtain ⟨hholds, htells⟩ := notify_spec buf buf₂ hholds₂ (hcb₂.trans hmoves₁.cb_eq)
          (htold₂.trans hmoves₁.told_eq)
        exact ⟨htells, Or.inr ⟨b :: data, rfl, rfl, hholds⟩⟩
  · obtain ⟨rfl, rfl⟩ := Prod.mk.inj (Except.ok.inj hread)
    exact ⟨hmoves₁.tells, Or.inl ⟨rfl, hholds₁, Or.inr hrefused⟩⟩

theorem read_ok (h : buf.Holds q) {n : ℕ} (hwithin : buf.Within n) (fd : Reader) (howmuch : ℤ)
    (hfits : q.length + fd.room ≤ n) (hn : n ≤ 2 ^ 60) :
    ∃ buf' res, buf.read heap fd howmuch = .ok (buf', res) ∧ buf'.Within n := by
  have hsize := readSize_le_room buf fd howmuch
  obtain ⟨buf₁, res₁, hexpand, hholds₁, hgrows, hwithin₁, henough⟩ :=
    expand_within heap h (buf.readSize fd.fionread howmuch) hwithin (by omega) hn
  unfold read
  dsimp only
  rw [hexpand, ok_bind]
  dsimp only
  rcases hgrows.room with ⟨rfl, -⟩ | ⟨rfl, -⟩
  · rw [if_neg (by decide)]
    cases hrecv : fd.recv (buf.readSize fd.fionread howmuch) with
    | none => exact ⟨buf₁, -1, rfl, hwithin₁⟩
    | some data =>
      cases data with
      | nil => exact ⟨buf₁, 0, rfl, hwithin₁⟩
      | cons b data =>
        have hlength := fd.length_recv _ _ hrecv
        have hroom := henough rfl
        obtain ⟨buf₂, happend⟩ := append_ok hholds₁ (b :: data) (by omega)
        obtain ⟨-, -, -, -, htot₂⟩ := append_spec hholds₁ happend
        refine ⟨_, (b :: data).length, by dsimp only; rw [happend]; rfl, Within.notify_if _ ?_ _ _⟩
        rw [Within, htot₂]
        exact hwithin₁
  · exact ⟨buf₁, -1, rfl, hwithin₁⟩

/-- What is written is taken from the front. -/
theorem write_spec (h : buf.Holds q) (fd : Writer) :
    ∃ buf', buf.Tells buf' ∧ buf'.totallen = buf.totallen ∧
      match fd.send q with
      | none => buf.write fd = .ok (buf', -1, []) ∧ buf'.Holds q
      | some n => buf.write fd = .ok (buf', n, q.take n) ∧ buf'.Holds (q.drop n) := by
  unfold write
  rw [h.readBlock_eq, ok_bind]
  cases fd.send q with
  | none => exact ⟨buf, .refl, rfl, rfl, h⟩
  | some n =>
    cases n with
    | zero => exact ⟨buf, .refl, rfl, rfl, h⟩
    | succ n =>
      have hdrain := drain_spec h (n + 1)
      exact ⟨_, hdrain.2, drain_totallen _, rfl, hdrain.1⟩

theorem find_spec (h : buf.Holds q) {what : Bytes} (hwhat : what ≠ []) :
    ∃ found, buf.find what = .ok found ∧ FirstAt what q found := by
  obtain ⟨first, what, rfl⟩ := List.exists_cons_of_ne_nil hwhat
  refine ⟨_, ?_, firstAt_findFrom first what q⟩
  unfold find
  rw [h.readBlock_eq]
  rfl

end Evbuffer

end SearchTools.Libevent
