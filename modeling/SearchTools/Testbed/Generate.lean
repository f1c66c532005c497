/-
# Page generation

`generate` walks the Markov table and writes a page body into an `evbuffer`.
The two builds differ in the lookup alone, so the walk takes the lookup as a
parameter. `GenState.written` is not a variable of the source: it records the
words that reached the buffer.
-/

import SearchTools.Library.Reservoir
import SearchTools.Testbed.IdealHashing

namespace SearchTools.Testbed

open SearchTools.Library

/-- `RAND_MAX` of the C library. -/
def randMax : ℕ := 2147483647

/-- `my_rand_r`: the drawn `int`, which is never negative, and the new seed. -/
def myRandR (seed : UInt32) : ℕ × UInt32 :=
  let next := seed * 1103515245 + 12345
  (next.toNat % (randMax + 1), next)

/-- The arguments of `generate` that stay fixed during a call, with the order in
which the compiler evaluates the two draws among the arguments of one call. -/
structure GenArgs where
  nwords : ℤ
  internLinks : ℤ
  externLinks : ℤ
  linksTotal : ℤ
  extPrefix : Word
  extSuffix : Word
  extServers : ℤ
  lastDrawFirst : Bool

/-- The local variables of `generate`, the seed and the buffer. -/
structure GenState where
  pref : Prefix
  w : Option Word
  seed : UInt32
  buf : Bytes
  pOpen : Bool
  written : List Word
  deriving DecidableEq, Repr

def GenState.start (seed : UInt32) (buf : Bytes) : GenState where
  pref := (nonword, nonword)
  w := none
  seed := seed
  buf := buf
  pOpen := false
  written := []

/-- The suffix loop: the word at position `nmatch` replaces the choice with
probability `1 / nmatch`. -/
def suffixLoop (suf : List Word) (w : Option Word) (seed : UInt32) : Option Word × UInt32 :=
  reservoir myRandR suf 0 w seed

/-- The word as a link of the testbed, a link to an external server, or plain. -/
def writeWord (a : GenArgs) (intLink extLink : Bool) (w : Word) (g : GenState) :
    Except Fault GenState :=
  if intLink then do
    let drawn := myRandR g.seed
    let page ← cmod drawn.1 a.linksTotal
    return { g with
      seed := drawn.2
      buf := g.buf ++ bytes "<a href=\"/" ++ decimal page ++ bytes ".html\">" ++ w ++
        bytes "</a> " }
  else if extLink then do
    let first := myRandR g.seed
    let second := myRandR first.2
    let server ← cmod (if a.lastDrawFirst then second.1 else first.1) a.extServers
    let page ← cmod (if a.lastDrawFirst then first.1 else second.1) a.linksTotal
    return { g with
      seed := second.2
      buf := g.buf ++ bytes "<a href=\"http://" ++ a.extPrefix ++ decimal server ++
        a.extSuffix ++ bytes "/" ++ decimal page ++ bytes ".html\">" ++ w ++
        bytes "</a> " }
  else
    return { g with buf := g.buf ++ w ++ bytes " " }

/-- The rest of an iteration once a word has been drawn: decide on links, open
a paragraph, write the word, end the line, slide the prefix. -/
def emitWord (a : GenArgs) (w : Word) (g : GenState) : Except Fault GenState := do
  let intDraw := myRandR g.seed
  let extDraw := myRandR intDraw.2
  let parDraw := myRandR extDraw.2
  let opened :=
    if parDraw.1 < randMax / 50 then
      { g with
        seed := parDraw.2
        buf := g.buf ++ (if g.pOpen then bytes "</p>\n" else []) ++ bytes "<p>\n"
        pOpen := true }
    else { g with seed := parDraw.2 }
  let sent ← writeWord a (decide ((intDraw.1 : ℤ) < a.internLinks))
    (decide ((extDraw.1 : ℤ) < a.externLinks)) w opened
  let lineDraw := myRandR sent.seed
  return { sent with
    seed := lineDraw.2
    buf := sent.buf ++ (if lineDraw.1 < randMax / 3 then bytes "\n" else [])
    pref := (g.pref.2, w)
    written := g.written ++ [w] }

/-- One iteration of the word loop; the flag tells that it left by `break`. -/
def generateBody (a : GenArgs) (find : Prefix → Except Fault (Option State))
    (g : GenState) : Except Fault (GenState × Bool) := do
  match ← find g.pref with
  | none => throw .nullPointer
  | some sp =>
      let chosen := suffixLoop sp.suf g.w g.seed
      match chosen.1 with
      | none => throw .nullPointer
      | some w =>
          let g := { g with w := some w, seed := chosen.2 }
          if w = nonword then return (g, true)
          return (← emitWord a w g, false)

/-- The word loop with the given number of iterations left. -/
def generateLoop (a : GenArgs) (find : Prefix → Except Fault (Option State)) :
    ℕ → GenState → Except Fault GenState
  | 0, g => return g
  | left + 1, g => do
      let r ← generateBody a find g
      if r.2 then return r.1
      generateLoop a find left r.1

/-- The end of the page: close the open paragraph. -/
def GenState.close (g : GenState) : GenState :=
  if g.pOpen then { g with buf := g.buf ++ bytes "</p>\n" } else g

/-- `generate`: a loop of `nwords` iterations, none when `nwords` is negative. -/
def generate (a : GenArgs) (find : Prefix → Except Fault (Option State))
    (seed : UInt32) (buf : Bytes) : Except Fault GenState := do
  let g ← generateLoop a find a.nwords.toNat (.start seed buf)
  return g.close

@[simp]
theorem GenState.written_close (g : GenState) : g.close.written = g.written := by
  unfold GenState.close
  split <;> rfl

@[simp]
theorem GenState.w_close (g : GenState) : g.close.w = g.w := by
  unfold GenState.close
  split <;> rfl

/-! ## The two builds -/

/-- The lookup of the plain build: `lookup(prefix, state->statetab, 0)`. -/
def plainLookup (t : TextState) (pref : Prefix) : Except Fault (Option State) :=
  .ok ((lookup pref t false).1.map t.heap)

/-- The lookup of the `IDEAL_HASHING` build. -/
def idealLookup (t : TextState) (ideal : IdealState) (pref : Prefix) :
    Except Fault (Option State) := do
  let sp ← lookupIdeal pref ideal
  return sp.map t.heap

/-- The lookup a build of the generator uses on a loaded table; the ideal build
needs `ideal_hashing` to have completed. -/
inductive IsBuild (t : TextState) : (Prefix → Except Fault (Option State)) → Prop
  | plain : IsBuild t (plainLookup t)
  | ideal {ideal : IdealState} (done : idealHashing t = some ideal) :
      IsBuild t (idealLookup t ideal)

/-- A state at the head of iteration `i` of a call of `generate`, before the
test `i < nwords`. -/
inductive LoopHead (a : GenArgs) (find : Prefix → Except Fault (Option State))
    (seed : UInt32) (buf : Bytes) : ℕ → GenState → Prop
  | start : LoopHead a find seed buf 0 (.start seed buf)
  | next {i : ℕ} {g g' : GenState} (head : LoopHead a find seed buf i g)
      (more : (i : ℤ) < a.nwords) (body : generateBody a find g = .ok (g', false)) :
      LoopHead a find seed buf (i + 1) g'

end SearchTools.Testbed
