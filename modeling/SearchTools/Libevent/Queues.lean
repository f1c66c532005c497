/-
# Event buffers as queues of bytes

Any number of buffers, and any calls on them in any order. What the callers see is what
they would see of queues of bytes, each with one end to add at and one to take from;
and a callback can follow the length of its buffer.
-/

import Mathlib.Algebra.BigOperators.Group.Finset.Basic
import Mathlib.Algebra.GroupWithZero.Nat
import Mathlib.Algebra.Order.BigOperators.Group.Finset
import Mathlib.Data.Set.Function
import SearchTools.Libevent.Evbuffer

namespace SearchTools.Libevent

open SearchTools.Library

/-- A call of a function of `buffer.c`. -/
inductive BufferCall (ι κ : Type)
  | add (i : ι) (data : Bytes)
  | addBuffer (outbuf inbuf : ι)
  | addVprintf (i : ι) (text : Bytes)
  | remove (i : ι) (datlen : ℕ)
  | readline (i : ι)
  | expand (i : ι) (datlen : ℕ)
  | drain (i : ι) (len : ℕ)
  | read (i : ι) (fd : Reader) (howmuch : ℤ)
  | write (i : ι) (fd : Writer)
  | find (i : ι) (what : Bytes)
  | setcb (i : ι) (cb : Option κ)

/-- What a call returns: nothing, an `int`, or what it was called for. -/
inductive BufferReply
  | done
  | count (n : ℤ)
  | bytes (data : Bytes)
  | line (line : Option Bytes)
  | sent (n : ℤ) (data : Bytes)
  | found (p : Option ℕ)
  deriving DecidableEq, Repr

variable {ι κ : Type}

namespace BufferCall

/-- A buffer is not added to itself, and something is looked for. -/
def Legal : BufferCall ι κ → Prop
  | .addBuffer outbuf inbuf => outbuf ≠ inbuf
  | .find _ what => what ≠ []
  | _ => True

/-- The call does not change who is told of the buffer. -/
def Keeps (i : ι) : BufferCall ι κ → Prop
  | .setcb j _ => j ≠ i
  | _ => True

/-- The call can ask for memory. -/
def Asks : BufferCall ι κ → Prop
  | .add .. | .addBuffer .. | .addVprintf .. | .expand .. | .read .. => True
  | _ => False

/-- A call that formats a text does not look whether there was memory for it. -/
def Given (heap : Heap) : BufferCall ι κ → Prop
  | .addVprintf .. => heap.GivesAll
  | _ => True

/-- How many bytes a call asks room for, at most. -/
def size : BufferCall ι κ → ℕ
  | .add _ data => data.length
  | .addVprintf _ text => text.length + 64
  | .expand _ datlen => datlen
  | .read _ fd _ => fd.room
  | _ => 0

end BufferCall

section Calls

variable [DecidableEq ι] (heap : Heap) (bufs : ι → Evbuffer κ)

def bufferCall : BufferCall ι κ → Except Fault ((ι → Evbuffer κ) × BufferReply)
  | .add i data => do
    let (buf, res) ← (bufs i).add heap data
    return (Function.update bufs i buf, .count res)
  | .addBuffer outbuf inbuf => do
    let (out, inp, res) ← Evbuffer.addBuffer heap (bufs outbuf) (bufs inbuf)
    return (Function.update (Function.update bufs outbuf out) inbuf inp, .count res)
  | .addVprintf i text => do
    let (buf, res) ← (bufs i).addVprintf heap text
    return (Function.update bufs i buf, .count res)
  | .remove i datlen => do
    let (buf, data) ← (bufs i).remove datlen
    return (Function.update bufs i buf, .bytes data)
  | .readline i => do
    let (buf, line) ← (bufs i).readline heap
    return (Function.update bufs i buf, .line line)
  | .expand i datlen => do
    let (buf, res) ← (bufs i).expand heap datlen
    return (Function.update bufs i buf, .count res)
  | .drain i len => return (Function.update bufs i ((bufs i).drain len), .done)
  | .read i fd howmuch => do
    let (buf, res) ← (bufs i).read heap fd howmuch
    return (Function.update bufs i buf, .count res)
  | .write i fd => do
    let (buf, n, data) ← (bufs i).write fd
    return (Function.update bufs i buf, .sent n data)
  | .find i what => do
    let found ← (bufs i).find what
    return (bufs, .found found)
  | .setcb i cb => return (Function.update bufs i ((bufs i).setcb cb), .done)

/-- Calls one after another, each with the memory there is while it runs. -/
def bufferRun (bufs : ι → Evbuffer κ) :
    List (Heap × BufferCall ι κ) → Except Fault ((ι → Evbuffer κ) × List BufferReply)
  | [] => .ok (bufs, [])
  | c :: calls => do
    let (bufs, reply) ← bufferCall c.1 bufs c.2
    let (bufs, replies) ← bufferRun bufs calls
    return (bufs, reply :: replies)

end Calls

section Queues

variable [DecidableEq ι] (q : ι → Bytes) (heap : Heap)

/-- The same calls on queues of bytes. A call that was refused memory, or could not format
its text, leaves the queues as they are; a line that there was no memory for is dropped. -/
inductive QueueStep : BufferCall ι κ → BufferReply → (ι → Bytes) → Prop
  | add (i : ι) (data : Bytes) :
    QueueStep (.add i data) (.count 0) (Function.update q i (q i ++ data))
  | addBuffer (outbuf inbuf : ι) :
    QueueStep (.addBuffer outbuf inbuf) (.count 0)
      (Function.update (Function.update q outbuf (q outbuf ++ q inbuf)) inbuf [])
  | addVprintf (i : ι) {text : Bytes} (h : text.length < 2 ^ 31) :
    QueueStep (.addVprintf i text) (.count text.length) (Function.update q i (q i ++ text))
  | tooLong (i : ι) {text : Bytes} (h : 2 ^ 31 ≤ text.length) :
    QueueStep (.addVprintf i text) (.count (-1)) q
  | refused {c : BufferCall ι κ} (hasks : c.Asks) (h : ¬ heap.GivesAll) :
    QueueStep c (.count (-1)) q
  | remove (i : ι) (datlen : ℕ) :
    QueueStep (.remove i datlen) (.bytes ((q i).take datlen))
      (Function.update q i ((q i).drop datlen))
  | noLine (i : ι) (h : firstLine (q i) = none) : QueueStep (.readline i) (.line none) q
  | line (i : ι) {line rest : Bytes} (h : firstLine (q i) = some (line, rest)) :
    QueueStep (.readline i) (.line (some line)) (Function.update q i rest)
  | lineDropped (i : ι) {line rest : Bytes} (h : firstLine (q i) = some (line, rest))
    (hrefused : ¬ heap.GivesAll) :
    QueueStep (.readline i) (.line none) (Function.update q i ((q i).drop line.length))
  | lineKept (i : ι) {line rest : Bytes} (h : firstLine (q i) = some (line, rest))
    (hlong : line.length + 2 = 2 ^ 32) : QueueStep (.readline i) (.line (some line)) q
  | expand (i : ι) (datlen : ℕ) : QueueStep (.expand i datlen) (.count 0) q
  | drain (i : ι) (len : ℕ) :
    QueueStep (.drain i len) .done (Function.update q i ((q i).drop len))
  | readError (i : ι) (fd : Reader) (howmuch : ℤ) (room : ℕ) (h : fd.recv room = none) :
    QueueStep (.read i fd howmuch) (.count (-1)) q
  | read (i : ι) (fd : Reader) (howmuch : ℤ) (room : ℕ) {data : Bytes}
    (h : fd.recv room = some data) (hfd : room ≤ fd.room)
    (hroom : 0 ≤ howmuch → (room : ℤ) ≤ howmuch) :
    QueueStep (.read i fd howmuch) (.count data.length) (Function.update q i (q i ++ data))
  | writeError (i : ι) (fd : Writer) (h : fd.send (q i) = none) :
    QueueStep (.write i fd) (.sent (-1) []) q
  | write (i : ι) (fd : Writer) {n : ℕ} (h : fd.send (q i) = some n) :
    QueueStep (.write i fd) (.sent n ((q i).take n)) (Function.update q i ((q i).drop n))
  | find (i : ι) {what : Bytes} {found : Option ℕ} (h : FirstAt what (q i) found) :
    QueueStep (.find i what) (.found found) q
  | setcb (i : ι) (cb : Option κ) : QueueStep (.setcb i cb) .done q

inductive QueueRun :
    (ι → Bytes) → List (Heap × BufferCall ι κ) → List BufferReply → (ι → Bytes) → Prop
  | nil (q : ι → Bytes) : QueueRun q [] [] q
  | cons {q q' q'' : ι → Bytes} {c : Heap × BufferCall ι κ} {reply : BufferReply}
    {calls : List (Heap × BufferCall ι κ)} {replies : List BufferReply}
    (h : QueueStep q c.1 c.2 reply q') (hrun : QueueRun q' calls replies q'') :
    QueueRun q (c :: calls) (reply :: replies) q''

end Queues

/-- The buffers hold the queues. -/
def HoldAll (bufs : ι → Evbuffer κ) (q : ι → Bytes) : Prop := ∀ i, (bufs i).Holds (q i)

section Updates

variable [DecidableEq ι] {bufs : ι → Evbuffer κ} {q : ι → Bytes} {i : ι} {buf : Evbuffer κ}
  {data : Bytes}

theorem HoldAll.update (h : HoldAll bufs q) (hbuf : buf.Holds data) :
    HoldAll (Function.update bufs i buf) (Function.update q i data) := by
  intro j
  by_cases hj : j = i
  · subst hj
    rwa [Function.update_self, Function.update_self]
  · rw [Function.update_of_ne hj, Function.update_of_ne hj]
    exact h j

/-- A buffer that holds what it held leaves the queues as they are. -/
theorem HoldAll.update_same (h : HoldAll bufs q) (hbuf : buf.Holds (q i)) :
    HoldAll (Function.update bufs i buf) q := by
  have hall := h.update (i := i) hbuf
  rwa [Function.update_eq_self] at hall

theorem tells_update (h : (bufs i).Tells buf) (j : ι) :
    (bufs j).Tells (Function.update bufs i buf j) := by
  by_cases hj : j = i
  · subst hj
    rwa [Function.update_self]
  · rw [Function.update_of_ne hj]
    exact .refl

end Updates

/-! ## What the callers see -/

section Seen

variable [DecidableEq ι] {bufs bufs' : ι → Evbuffer κ} {q : ι → Bytes}

/-- A call that returns does on the buffers what it does on the queues. -/
theorem bufferCall_spec {heap : Heap} (h : HoldAll bufs q) {c : BufferCall ι κ}
    (hlegal : c.Legal) {reply : BufferReply} (hcall : bufferCall heap bufs c = .ok (bufs', reply)) :
    ∃ q', QueueStep q heap c reply q' ∧ HoldAll bufs' q' ∧
      ∀ i, c.Keeps i → (bufs i).Tells (bufs' i) := by
  cases c with
  | add i data =>
    obtain ⟨⟨buf, res⟩, hadd, hcall⟩ := bind_eq_ok.mp hcall
    obtain ⟨rfl, rfl⟩ := Prod.mk.inj (Except.ok.inj hcall)
    obtain ⟨htells, ⟨rfl, hholds⟩ | ⟨rfl, hholds, hrefused⟩⟩ := Evbuffer.add_spec heap (h i) hadd
    · exact ⟨_, .add i data, h.update hholds, fun j _ => tells_update htells j⟩
    · exact ⟨q, .refused trivial hrefused, h.update_same hholds, fun j _ => tells_update htells j⟩
  | addBuffer outbuf inbuf =>
    obtain ⟨⟨out, inp, res⟩, hadd, hcall⟩ := bind_eq_ok.mp hcall
    obtain ⟨rfl, rfl⟩ := Prod.mk.inj (Except.ok.inj hcall)
    obtain ⟨htellsOut, htellsIn, hends⟩ :=
      Evbuffer.addBuffer_spec heap (h outbuf) (h inbuf) hadd
    have hsame : Function.update bufs outbuf out inbuf = bufs inbuf :=
      Function.update_of_ne (Ne.symm hlegal) _ _
    have htells : ∀ j, (bufs j).Tells
        (Function.update (Function.update bufs outbuf out) inbuf inp j) := fun j =>
      (tells_update htellsOut j).trans (tells_update (hsame ▸ htellsIn) j)
    rcases hends with ⟨rfl, hout, hin⟩ | ⟨rfl, hout, hin, hrefused⟩
    · exact ⟨_, .addBuffer outbuf inbuf, (h.update hout).update hin, fun j _ => htells j⟩
    · exact ⟨q, .refused trivial hrefused, (h.update_same hout).update_same hin,
        fun j _ => htells j⟩
  | addVprintf i text =>
    obtain ⟨⟨buf, res⟩, hadd, hcall⟩ := bind_eq_ok.mp hcall
    obtain ⟨rfl, rfl⟩ := Prod.mk.inj (Except.ok.inj hcall)
    obtain ⟨htells, ⟨rfl, hholds, hlength⟩ | ⟨rfl, hholds, hlong | hrefused⟩⟩ :=
      Evbuffer.addVprintf_spec heap (h i) hadd
    · exact ⟨_, .addVprintf i hlength, h.update hholds, fun j _ => tells_update htells j⟩
    · exact ⟨q, .tooLong i hlong, h.update_same hholds, fun j _ => tells_update htells j⟩
    · exact ⟨q, .refused trivial hrefused, h.update_same hholds, fun j _ => tells_update htells j⟩
  | remove i datlen =>
    obtain ⟨buf, hremove, hholds, htells, -⟩ := Evbuffer.remove_spec (h i) datlen
    rw [bufferCall, hremove] at hcall
    obtain ⟨rfl, rfl⟩ := Prod.mk.inj (Except.ok.inj hcall)
    exact ⟨_, .remove i datlen, h.update hholds, fun j _ => tells_update htells j⟩
  | readline i =>
    obtain ⟨⟨buf, line⟩, hreadline, hcall⟩ := bind_eq_ok.mp hcall
    obtain ⟨rfl, rfl⟩ := Prod.mk.inj (Except.ok.inj hcall)
    obtain ⟨htells, -, hends⟩ := Evbuffer.readline_spec heap (h i) hreadline
    have hall : ∀ j, (BufferCall.readline i : BufferCall ι κ).Keeps j →
        (bufs j).Tells (Function.update bufs i buf j) := fun j _ => tells_update htells j
    rcases hends with ⟨hline, rfl, hholds⟩ | ⟨first, rest, hline, hends⟩
    · exact ⟨q, .noLine i hline, h.update_same hholds, hall⟩
    rcases hends with ⟨rfl, hholds | ⟨hlong, hholds⟩⟩ | ⟨rfl, hholds, hrefused⟩
    · exact ⟨_, .line i hline, h.update hholds, hall⟩
    · exact ⟨q, .lineKept i hline hlong, h.update_same hholds, hall⟩
    · exact ⟨_, .lineDropped i hline hrefused, h.update hholds, hall⟩
  | expand i datlen =>
    obtain ⟨⟨buf, res⟩, hexpand, hcall⟩ := bind_eq_ok.mp hcall
    obtain ⟨rfl, rfl⟩ := Prod.mk.inj (Except.ok.inj hcall)
    obtain ⟨hholds, hgrows⟩ := Evbuffer.expand_spec heap (h i) hexpand
    have htells := hgrows.moves.tells
    rcases hgrows.room with ⟨rfl, -⟩ | ⟨rfl, hrefused⟩
    · exact ⟨q, .expand i datlen, h.update_same hholds, fun j _ => tells_update htells j⟩
    · exact ⟨q, .refused trivial hrefused, h.update_same hholds, fun j _ => tells_update htells j⟩
  | drain i len =>
    obtain ⟨hholds, htells⟩ := Evbuffer.drain_spec (h i) len
    obtain ⟨rfl, rfl⟩ := Prod.mk.inj (Except.ok.inj hcall)
    exact ⟨_, .drain i len, h.update hholds, fun j _ => tells_update htells j⟩
  | read i fd howmuch =>
    obtain ⟨⟨buf, res⟩, hread, hcall⟩ := bind_eq_ok.mp hcall
    obtain ⟨rfl, rfl⟩ := Prod.mk.inj (Except.ok.inj hcall)
    obtain ⟨htells, ⟨rfl, hholds, hrecv | hrefused⟩ | ⟨data, hrecv, rfl, hholds⟩⟩ :=
      Evbuffer.read_spec heap (h i) fd howmuch hread
    · exact ⟨q, .readError i fd howmuch _ hrecv, h.update_same hholds,
        fun j _ => tells_update htells j⟩
    · exact ⟨q, .refused trivial hrefused, h.update_same hholds, fun j _ => tells_update htells j⟩
    · exact ⟨_, .read i fd howmuch _ hrecv (Evbuffer.readSize_le_room _ fd howmuch)
        Evbuffer.readSize_le,
        h.update hholds, fun j _ => tells_update htells j⟩
  | write i fd =>
    obtain ⟨buf, htells, -, hsend⟩ := Evbuffer.write_spec (h i) fd
    cases hn : fd.send (q i) with
    | none =>
      rw [hn] at hsend
      rw [bufferCall, hsend.1] at hcall
      obtain ⟨rfl, rfl⟩ := Prod.mk.inj (Except.ok.inj hcall)
      exact ⟨q, .writeError i fd hn, h.update_same hsend.2, fun j _ => tells_update htells j⟩
    | some n =>
      rw [hn] at hsend
      rw [bufferCall, hsend.1] at hcall
      obtain ⟨rfl, rfl⟩ := Prod.mk.inj (Except.ok.inj hcall)
      exact ⟨_, .write i fd hn, h.update hsend.2, fun j _ => tells_update htells j⟩
  | find i what =>
    obtain ⟨found, hfind, hfirst⟩ := Evbuffer.find_spec (h i) hlegal
    rw [bufferCall, hfind] at hcall
    obtain ⟨rfl, rfl⟩ := Prod.mk.inj (Except.ok.inj hcall)
    exact ⟨q, .find i hfirst, h, fun j _ => .refl⟩
  | setcb i cb =>
    have hi := h i
    obtain ⟨rfl, rfl⟩ := Prod.mk.inj (Except.ok.inj hcall)
    refine ⟨q, .setcb i cb,
      h.update_same ⟨hi.buffer_eq, hi.totallen_eq, hi.room, hi.data_eq⟩, fun j hj => ?_⟩
    rw [Function.update_of_ne (Ne.symm hj)]
    exact .refl

/-- So does every run, and callbacks that stay can follow the lengths. -/
theorem bufferRun_spec (h : HoldAll bufs q) {calls : List (Heap × BufferCall ι κ)}
    (hlegal : ∀ c ∈ calls, c.2.Legal) {replies : List BufferReply}
    (hrun : bufferRun bufs calls = .ok (bufs', replies)) :
    ∃ q', QueueRun q calls replies q' ∧ HoldAll bufs' q' ∧
      ∀ i, (∀ c ∈ calls, c.2.Keeps i) → (bufs i).Tells (bufs' i) := by
  induction calls generalizing bufs q replies with
  | nil =>
    obtain ⟨rfl, rfl⟩ := Prod.mk.inj (Except.ok.inj hrun)
    exact ⟨q, .nil q, h, fun _ _ => .refl⟩
  | cons c calls ih =>
    obtain ⟨hc, hcalls⟩ := List.forall_mem_cons.mp hlegal
    obtain ⟨⟨bufs₁, reply⟩, hcall, hrun⟩ := bind_eq_ok.mp hrun
    obtain ⟨⟨bufs₂, replies'⟩, hrest, hrun⟩ := bind_eq_ok.mp hrun
    obtain ⟨rfl, rfl⟩ := Prod.mk.inj (Except.ok.inj hrun)
    obtain ⟨q₁, hstep, hholds₁, htells₁⟩ := bufferCall_spec h hc hcall
    obtain ⟨q₂, hqueues, hholds₂, htells₂⟩ := ih hholds₁ hcalls hrest
    refine ⟨q₂, .cons hstep hqueues, hholds₂, fun i hkeeps => ?_⟩
    obtain ⟨hkeep, hkeeps⟩ := List.forall_mem_cons.mp hkeeps
    exact (htells₁ i hkeep).trans (htells₂ i hkeeps)

end Seen

/-! ## Runs that do not fault -/

section Sizes

variable {bufs : ι → Evbuffer κ} {q q' : ι → Bytes} {n : ℕ}

/-- The queues have at most `n` bytes together. -/
def Total (q : ι → Bytes) (n : ℕ) : Prop := ∀ s : Finset ι, ∑ i ∈ s, (q i).length ≤ n

theorem Total.length_le (h : Total q n) (i : ι) : (q i).length ≤ n := by
  have hone := h {i}
  rwa [Finset.sum_singleton] at hone

theorem Total.mono {n' : ℕ} (h : Total q n) (hn : n ≤ n') : Total q n' :=
  fun s => Nat.le_trans (h s) hn

variable [DecidableEq ι]

theorem Total.pair_le (h : Total q n) {i j : ι} (hij : i ≠ j) :
    (q i).length + (q j).length ≤ n := by
  have htwo := h {i, j}
  rwa [Finset.sum_pair hij] at htwo

/-- One queue gets at most `m` bytes more. -/
theorem Total.update (h : Total q n) (i : ι) {data : Bytes} {m : ℕ}
    (hdata : data.length ≤ (q i).length + m) : Total (Function.update q i data) (n + m) := by
  intro s
  have hrest : ∑ j ∈ s.erase i, (Function.update q i data j).length =
      ∑ j ∈ s.erase i, (q j).length := by
    refine Finset.sum_congr rfl fun j hj => ?_
    rw [Function.update_of_ne (Finset.ne_of_mem_erase hj)]
  by_cases hi : i ∈ s
  · have hold := h s
    rw [← Finset.add_sum_erase s _ hi] at hold
    rw [← Finset.add_sum_erase s _ hi, hrest, Function.update_self]
    omega
  · have hold := h s
    rw [← Finset.erase_eq_of_notMem hi] at hold ⊢
    rw [hrest]
    omega

/-- The bytes of one queue go to another. -/
theorem Total.move (h : Total q n) {i j : ι} (hij : i ≠ j) :
    Total (Function.update (Function.update q i (q i ++ q j)) j []) n := by
  intro s
  have hboth : ∀ f : ι → ℕ, ∑ k ∈ insert i (insert j s), f k =
      f i + (f j + ∑ k ∈ ((insert i (insert j s)).erase i).erase j, f k) := by
    intro f
    have hi : i ∈ insert i (insert j s) := Finset.mem_insert_self _ _
    have hj : j ∈ (insert i (insert j s)).erase i :=
      Finset.mem_erase.mpr ⟨Ne.symm hij, Finset.mem_insert_of_mem (Finset.mem_insert_self _ _)⟩
    rw [Finset.add_sum_erase _ f hj, Finset.add_sum_erase _ f hi]
  have hold := h (insert i (insert j s))
  rw [hboth] at hold
  refine Nat.le_trans (Finset.sum_le_sum_of_subset
    ((Finset.subset_insert j s).trans (Finset.subset_insert i _))) ?_
  rw [hboth, Function.update_self, Function.update_of_ne hij, Function.update_self,
    List.length_append, List.length_nil]
  have hrest : ∑ k ∈ ((insert i (insert j s)).erase i).erase j,
      (Function.update (Function.update q i (q i ++ q j)) j [] k).length =
        ∑ k ∈ ((insert i (insert j s)).erase i).erase j, (q k).length := by
    refine Finset.sum_congr rfl fun k hk => ?_
    obtain ⟨hkj, hk⟩ := Finset.mem_erase.mp hk
    rw [Function.update_of_ne hkj, Function.update_of_ne (Finset.ne_of_mem_erase hk)]
  rw [hrest]
  omega

/-- A call adds to the queues what it asks room for, at most. -/
theorem QueueStep.total {heap : Heap} {c : BufferCall ι κ} {reply : BufferReply}
    (hstep : QueueStep q heap c reply q') (hlegal : c.Legal) (h : Total q n) :
    Total q' (n + c.size) := by
  have hsame : Total q (n + c.size) := h.mono (Nat.le_add_right _ _)
  cases hstep with
  | add i data => exact h.update i (by rw [List.length_append]; exact Nat.le_refl _)
  | addBuffer outbuf inbuf => exact h.move hlegal
  | addVprintf i hlength =>
    refine h.update i ?_
    rw [List.length_append, BufferCall.size]
    omega
  | remove i datlen => exact h.update i (by rw [List.length_drop]; omega)
  | line i hline =>
    exact h.update i
      (Nat.le_trans (Nat.le_of_lt (length_lt_of_firstLine hline)) (Nat.le_add_right _ _))
  | lineDropped i _ _ => exact h.update i (by rw [List.length_drop]; omega)
  | drain i len => exact h.update i (by rw [List.length_drop]; omega)
  | read i fd howmuch room hrecv hfd _ =>
    have hlength := fd.length_recv _ _ hrecv
    refine h.update i ?_
    rw [List.length_append, BufferCall.size]
    omega
  | write i fd hsend => exact h.update i (by rw [List.length_drop]; omega)
  | _ => exact hsame

/-- Every call returns when there is room for it and memory to format in. -/
theorem bufferCall_ok {heap : Heap} (h : HoldAll bufs q) (hwithin : ∀ i, (bufs i).Within n)
    (htotal : Total q n) {c : BufferCall ι κ} (hlegal : c.Legal) (hgiven : c.Given heap)
    (hsize : n + c.size < 2 ^ 31) :
    ∃ bufs' reply, bufferCall heap bufs c = .ok (bufs', reply) ∧
      ∀ i, (bufs' i).Within (n + c.size) := by
  have hlarger : ∀ i, (bufs i).Within (n + c.size) := fun i =>
    (hwithin i).mono (Nat.le_add_right _ _)
  have hupdate : ∀ {i : ι} {buf : Evbuffer κ}, buf.Within (n + c.size) → ∀ j,
      (Function.update bufs i buf j).Within (n + c.size) := by
    intro i buf hbuf j
    by_cases hj : j = i
    · subst hj
      rwa [Function.update_self]
    · rw [Function.update_of_ne hj]
      exact hlarger j
  have hsame : ∀ {i : ι} {buf : Evbuffer κ}, buf.totallen = (bufs i).totallen →
      buf.Within (n + c.size) := by
    intro i buf htot
    rw [Evbuffer.Within, htot]
    exact hlarger i
  have hlength := htotal.length_le
  have hn : n + c.size ≤ 2 ^ 60 := Nat.le_trans (Nat.le_of_lt hsize) (by decide)
  cases c with
  | add i data =>
    obtain ⟨buf, res, hadd, hbuf⟩ := Evbuffer.add_ok heap (h i) (hlarger i) data
      (Nat.add_le_add_right (hlength i) _) hn
    exact ⟨_, _, by rw [bufferCall, hadd]; rfl, hupdate hbuf⟩
  | addBuffer outbuf inbuf =>
    obtain ⟨out, inp, res, hadd, hout, hin⟩ := Evbuffer.addBuffer_ok heap (h outbuf) (h inbuf)
      (hlarger outbuf) (hlarger inbuf) (htotal.pair_le hlegal) hn
    refine ⟨_, _, by rw [bufferCall, hadd]; rfl, fun j => ?_⟩
    by_cases hj : j = inbuf
    · subst hj
      rwa [Function.update_self]
    · rw [Function.update_of_ne hj]
      exact hupdate hout j
  | addVprintf i text =>
    have htext : n + (text.length + 64) < 2 ^ 31 := hsize
    obtain ⟨buf, res, hadd, hbuf⟩ := Evbuffer.addVprintf_ok heap hgiven (h i) (hlarger i) text
      (by omega) (Nat.add_le_add_right (hlength i) _) hn
    exact ⟨_, _, by rw [bufferCall, hadd]; rfl, hupdate hbuf⟩
  | remove i datlen =>
    obtain ⟨buf, hremove, -, -, htot⟩ := Evbuffer.remove_spec (h i) datlen
    exact ⟨_, _, by rw [bufferCall, hremove]; rfl, hupdate (hsame htot)⟩
  | readline i =>
    have hi := hlength i
    obtain ⟨buf, line, hreadline⟩ := Evbuffer.readline_ok heap (h i) (by omega)
    obtain ⟨-, htot, -⟩ := Evbuffer.readline_spec heap (h i) hreadline
    exact ⟨_, _, by rw [bufferCall, hreadline]; rfl, hupdate (hsame htot)⟩
  | expand i datlen =>
    obtain ⟨buf, res, hexpand, -, -, hbuf, -⟩ := Evbuffer.expand_within heap (h i) datlen
      (hlarger i) (Nat.add_le_add_right (hlength i) _) hn
    exact ⟨_, _, by rw [bufferCall, hexpand]; rfl, hupdate hbuf⟩
  | drain i len => exact ⟨_, _, rfl, hupdate (hsame (Evbuffer.drain_totallen len))⟩
  | read i fd howmuch =>
    obtain ⟨buf, res, hread, hbuf⟩ := Evbuffer.read_ok heap (h i) (hlarger i) fd howmuch
      (Nat.add_le_add_right (hlength i) _) hn
    exact ⟨_, _, by rw [bufferCall, hread]; rfl, hupdate hbuf⟩
  | write i fd =>
    obtain ⟨buf, -, htot, hsend⟩ := Evbuffer.write_spec (h i) fd
    cases hn : fd.send (q i) with
    | none =>
      rw [hn] at hsend
      exact ⟨_, _, by rw [bufferCall, hsend.1]; rfl, hupdate (hsame htot)⟩
    | some sent =>
      rw [hn] at hsend
      exact ⟨_, _, by rw [bufferCall, hsend.1]; rfl, hupdate (hsame htot)⟩
  | find i what =>
    obtain ⟨found, hfind, -⟩ := Evbuffer.find_spec (h i) hlegal
    exact ⟨bufs, _, by rw [bufferCall, hfind]; rfl, hlarger⟩
  | setcb i cb =>
    have hset : ((bufs i).setcb cb).Within _ := hlarger i
    exact ⟨_, _, rfl, hupdate hset⟩

theorem bufferRun_ok (h : HoldAll bufs q) (hwithin : ∀ i, (bufs i).Within n) (htotal : Total q n)
    {calls : List (Heap × BufferCall ι κ)} (hlegal : ∀ c ∈ calls, c.2.Legal)
    (hgiven : ∀ c ∈ calls, c.2.Given c.1)
    (hsize : n + (calls.map fun c => c.2.size).sum < 2 ^ 31) :
    ∃ bufs' replies, bufferRun bufs calls = .ok (bufs', replies) := by
  induction calls generalizing bufs q n with
  | nil => exact ⟨bufs, [], rfl⟩
  | cons c calls ih =>
    obtain ⟨hc, hcalls⟩ := List.forall_mem_cons.mp hlegal
    obtain ⟨hgive, hgives⟩ := List.forall_mem_cons.mp hgiven
    rw [List.map_cons, List.sum_cons] at hsize
    obtain ⟨bufs₁, reply, hcall, hwithin₁⟩ :=
      bufferCall_ok h hwithin htotal hc hgive (by omega)
    obtain ⟨q₁, hstep, hholds₁, -⟩ := bufferCall_spec h hc hcall
    obtain ⟨bufs₂, replies, hrun⟩ :=
      ih hholds₁ hwithin₁ (hstep.total hc htotal) hcalls hgives (by omega)
    refine ⟨bufs₂, reply :: replies, ?_⟩
    rw [bufferRun, hcall, ok_bind]
    dsimp only
    rw [hrun]
    rfl

/-- No run from new buffers faults, and its replies are those of the queues. -/
theorem bufferRun_queues {calls : List (Heap × BufferCall ι κ)}
    (hlegal : ∀ c ∈ calls, c.2.Legal) (hgiven : ∀ c ∈ calls, c.2.Given c.1)
    (hsize : (calls.map fun c => c.2.size).sum < 2 ^ 31) :
    ∃ bufs' replies q', bufferRun (fun _ => {}) calls = .ok (bufs', replies) ∧
      QueueRun (fun _ => []) calls replies q' ∧ HoldAll bufs' q' := by
  have hnew : HoldAll (fun _ : ι => ({} : Evbuffer κ)) fun _ => [] := fun _ => Evbuffer.holds_new
  have hempty : Total (fun _ : ι => []) 0 := fun s => by simp
  obtain ⟨bufs', replies, hrun⟩ := bufferRun_ok hnew (fun _ => Nat.zero_le _) hempty hlegal hgiven
    (by omega)
  obtain ⟨q', hqueues, hholds, -⟩ := bufferRun_spec hnew hlegal hrun
  exact ⟨bufs', replies, q', hrun, hqueues, hholds⟩

/-- Bytes that are added, moved and read. -/
def sampleCalls : List (Heap × BufferCall Bool Unit) :=
  [.add true [97, 98, 10], .addBuffer false true, .find false [98], .readline false].map
    (Prod.mk Malloc.zeroed.heap)

theorem legal_sampleCalls : ∀ c ∈ sampleCalls, c.2.Legal :=
  List.forall_mem_cons.mpr ⟨trivial, List.forall_mem_cons.mpr ⟨Bool.false_ne_true,
    List.forall_mem_cons.mpr ⟨List.cons_ne_nil _ _, List.forall_mem_singleton.mpr trivial⟩⟩⟩

theorem given_sampleCalls : ∀ c ∈ sampleCalls, c.2.Given c.1 :=
  List.forall_mem_cons.mpr ⟨trivial, List.forall_mem_cons.mpr ⟨trivial,
    List.forall_mem_cons.mpr ⟨trivial, List.forall_mem_singleton.mpr trivial⟩⟩⟩

theorem size_sampleCalls : (sampleCalls.map fun c => c.2.size).sum < 2 ^ 31 := by decide

theorem bufferRun_queues_sample :
    ∃ bufs' replies q', bufferRun (fun _ => {}) sampleCalls = .ok (bufs', replies) ∧
      QueueRun (fun _ => []) sampleCalls replies q' ∧ HoldAll bufs' q' :=
  bufferRun_queues legal_sampleCalls given_sampleCalls size_sampleCalls

/-- A callback that stays is told of changes that lead from the length before a run to the
length after it. -/
theorem bufferRun_told (h : HoldAll bufs q) {calls : List (Heap × BufferCall ι κ)}
    (hlegal : ∀ c ∈ calls, c.2.Legal) {i : ι} (hkeeps : ∀ c ∈ calls, c.2.Keeps i) {cb : κ}
    (hcb : (bufs i).cb = some cb) {bufs' : ι → Evbuffer κ} {replies : List BufferReply}
    (hrun : bufferRun bufs calls = .ok (bufs', replies)) :
    ∃ changes q', Evbuffer.IsPath (q i).length changes (q' i).length ∧
      (bufs' i).told = (bufs i).told ++ changes.map (Prod.mk cb) ∧
      QueueRun q calls replies q' ∧ HoldAll bufs' q' := by
  obtain ⟨q', hqueues, hholds, htells⟩ := bufferRun_spec h hlegal hrun
  obtain ⟨-, changes, hpath, htold⟩ := htells i hkeeps
  refine ⟨changes, q', ?_, ?_, hqueues, hholds⟩
  · rwa [(h i).off_eq, (hholds i).off_eq] at hpath
  · rw [htold, hcb, Option.toList_some, List.flatMap_singleton]

/-- A callback on the buffer that the bytes are moved to. -/
def listening (i : Bool) : Evbuffer Unit := { cb := if i then none else some () }

theorem holdAll_listening : HoldAll listening fun _ => [] := fun _ => ⟨rfl, rfl, Nat.le_refl 0, rfl⟩

theorem bufferRun_told_sample : ∃ bufs' replies,
    bufferRun listening sampleCalls = .ok (bufs', replies) ∧
      ∃ changes q', Evbuffer.IsPath 0 changes (q' false).length ∧
        (bufs' false).told = (listening false).told ++ changes.map (Prod.mk ()) ∧
        QueueRun (fun _ => []) sampleCalls replies q' ∧ HoldAll bufs' q' := by
  have hempty : Total (fun _ : Bool => []) 0 := fun s => by simp
  obtain ⟨bufs', replies, hrun⟩ := bufferRun_ok holdAll_listening (fun _ => Nat.zero_le _) hempty
    legal_sampleCalls given_sampleCalls
    (Nat.lt_of_le_of_lt (Nat.le_of_eq (Nat.zero_add _)) size_sampleCalls)
  have hkeeps : ∀ c ∈ sampleCalls, c.2.Keeps false :=
    List.forall_mem_cons.mpr ⟨trivial, List.forall_mem_cons.mpr ⟨trivial,
      List.forall_mem_cons.mpr ⟨trivial, List.forall_mem_singleton.mpr trivial⟩⟩⟩
  exact ⟨bufs', replies, hrun,
    bufferRun_told holdAll_listening legal_sampleCalls hkeeps rfl hrun⟩

end Sizes

end SearchTools.Libevent
