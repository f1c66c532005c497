/-
# Servers with workers

The part of `contrib/libevent/http.c` that the patch for several workers adds or
changes. Objects live at addresses; reading an address that was freed, or the
null pointer, is a fault. A pipe is one number for both of its descriptors. Two
logs say what no field does: the workers that were added, and the objects that
the functions were called on.
-/

import Mathlib.Logic.Function.Basic
import SearchTools.Library.Memory

namespace SearchTools.Libevent

open SearchTools.Library

/-- An address. The null pointer is 0. -/
abbrev Ptr := ℕ

/-- `struct evhttp_cb`. -/
structure EvhttpCb where
  what : Bytes
  cb : Ptr
  cbarg : Ptr
  deriving DecidableEq, Repr

/-- `struct task`: an accepted socket and the address it came from. -/
structure Task where
  ss : Bytes
  fd : ℕ
  deriving DecidableEq, Repr

/-- `struct evhttp`, as `calloc` returns it. -/
structure Evhttp where
  callbacks : List EvhttpCb := []
  timeout : ℤ := 0
  gencb : Ptr := 0
  gencbarg : Ptr := 0
  tasks : List Task := []
  next : Ptr := 0
  cur : Ptr := 0
  wakeup : ℕ := 0
  rcv : ℕ := 0
  deriving DecidableEq, Repr

structure State where
  heap : Ptr → Option Evhttp
  /-- The address that `calloc` returns next. -/
  brk : Ptr
  /-- The number of bytes in each pipe. -/
  pipes : ℕ → ℕ
  /-- The number of pipes made so far. -/
  npipes : ℕ
  /-- The sockets handed to `evhttp_get_request`, each with its server. -/
  requests : List (Ptr × Task)
  /-- The workers added so far. -/
  workers : List Ptr
  /-- The objects that a function of this file was called on. -/
  calls : List Ptr

namespace State

variable (s : State) (p : Ptr)

/-- Read the object at an address. -/
def read : Except Fault Evhttp :=
  if p = 0 then .error .nullPointer
  else
    match s.heap p with
    | none => .error .useAfterFree
    | some h => .ok h

def write (h : Evhttp) : State := { s with heap := Function.update s.heap p (some h) }

/-- Assign to fields of the object at an address. -/
def modify (f : Evhttp → Evhttp) : Except Fault State := do
  let h ← s.read p
  return s.write p (f h)

def free : Except Fault State := do
  let _ ← s.read p
  return { s with heap := Function.update s.heap p none }

/-- Note a call. -/
def enter : State := { s with calls := s.calls ++ [p] }

/-- `evhttp_get_request`. -/
def evhttpGetRequest (task : Task) : State := { s with requests := s.requests ++ [(p, task)] }

end State

/-! ## Creation -/

/-- `evhttp_new_object`. -/
def evhttpNewObject (s : State) : Ptr × State :=
  (s.brk, { s.write s.brk { timeout := -1 } with brk := s.brk + 1 })

/-- `evhttp_new`. Without memory it writes to the null pointer. -/
def evhttpNew (memory : Bool) (s : State) : Except Fault (Ptr × State) :=
  if memory then .ok (evhttpNewObject s) else .error .nullPointer

/-! ## Destruction -/

/-- The loop of `evhttp_free` over the workers: the last of them is left. -/
def freeLoop (call : Ptr → State → Except Fault State) (http : Ptr) :
    ℕ → Ptr → State → Except Fault (Ptr × State)
  | 0, _, _ => .error .outOfFuel
  | fuel + 1, cur, s => do
      let c ← s.read cur
      let s ← call cur s
      let c' ← s.read c.next
      let h ← s.read http
      if c'.next ≠ h.next then freeLoop call http fuel c.next s else return (c.next, s)

/-- `evhttp_free` to a depth of calls within calls. -/
def evhttpFreeWithin : ℕ → Ptr → State → Except Fault State
  | 0, _, _ => .error .outOfFuel
  | depth + 1, http, s => do
      let s ← (s.enter http).modify http fun h => { h with callbacks := [] }
      let h ← s.read http
      if h.cur ≠ 0 then
        let (cur, s) ← freeLoop (evhttpFreeWithin depth) http s.brk h.next s
        let s ← evhttpFreeWithin depth cur s
        s.free http
      else s.free http

/-- `evhttp_free`. -/
def evhttpFree (http : Ptr) (s : State) : Except Fault State := evhttpFreeWithin (s.brk + 1) http s

/-! ## Settings -/

/-- The functions that set something on a server and on each of its workers. -/
inductive Op
  | setCb (uri : Bytes) (cb cbarg : Ptr)
  | delCb (uri : Bytes)
  | setGencb (cb cbarg : Ptr)
  | setTimeout (timeoutInSecs : ℤ)
  deriving DecidableEq, Repr

/-- What a function does to the object itself. `evhttp_del_cb` returns when it
finds no entry of the URI. -/
def Op.own : Op → Evhttp → Option Evhttp
  | setCb uri cb cbarg, h => some { h with callbacks := h.callbacks ++ [⟨uri, cb, cbarg⟩] }
  | delCb uri, h =>
      if h.callbacks.any (·.what == uri) then
        some { h with callbacks := h.callbacks.eraseP (·.what == uri) }
      else none
  | setGencb cb cbarg, h => some { h with gencb := cb, gencbarg := cbarg }
  | setTimeout timeoutInSecs, h => some { h with timeout := timeoutInSecs }

/-- The loop over the workers: the last of them is left. -/
def workersLoop (call : Ptr → State → Except Fault State) (http : Ptr) :
    ℕ → Ptr → State → Except Fault (Ptr × State)
  | 0, _, _ => .error .outOfFuel
  | fuel + 1, cur, s => do
      let s ← call cur s
      let c ← s.read cur
      let c' ← s.read c.next
      let h ← s.read http
      if c'.next ≠ h.next then workersLoop call http fuel c.next s else return (c.next, s)

/-- The function to a depth of calls within calls. -/
def Op.within (op : Op) : ℕ → Ptr → State → Except Fault State
  | 0, _, _ => .error .outOfFuel
  | depth + 1, http, s => do
      let s := s.enter http
      let h ← s.read http
      match op.own h with
      | none => return s
      | some h =>
          let s := s.write http h
          if h.cur ≠ 0 then
            let (cur, s) ← workersLoop (op.within depth) http s.brk h.next s
            op.within depth cur s
          else return s

def Op.run (op : Op) (http : Ptr) (s : State) : Except Fault State := op.within (s.brk + 1) http s

/-- `evhttp_set_cb`. -/
def evhttpSetCb (http : Ptr) (uri : Bytes) (cb cbarg : Ptr) : State → Except Fault State :=
  (Op.setCb uri cb cbarg).run http

/-- `evhttp_del_cb`. -/
def evhttpDelCb (http : Ptr) (uri : Bytes) (s : State) : Except Fault (ℤ × State) := do
  let h ← s.read http
  let s ← (Op.delCb uri).run http s
  return (if h.callbacks.any (·.what == uri) then 0 else -1, s)

/-- `evhttp_set_gencb`. -/
def evhttpSetGencb (http : Ptr) (cb cbarg : Ptr) : State → Except Fault State :=
  (Op.setGencb cb cbarg).run http

/-- `evhttp_set_timeout`. -/
def evhttpSetTimeout (http : Ptr) (timeoutInSecs : ℤ) : State → Except Fault State :=
  (Op.setTimeout timeoutInSecs).run http

/-! ## Workers -/

/-- What the system gives to `evhttp_add_worker`: an event base, memory for the
worker, and a pipe. -/
structure Supply where
  base : Bool
  memory : Bool
  pipe : Bool
  deriving DecidableEq, Repr

/-- The loop of `evhttp_add_worker`: the worker that links to the first one. -/
def lastLoop (http : Ptr) (s : State) : ℕ → Ptr → Except Fault Ptr
  | 0, _ => .error .outOfFuel
  | fuel + 1, cur => do
      let c ← s.read cur
      let c' ← s.read c.next
      let h ← s.read http
      if c'.next ≠ h.next then lastLoop http s fuel c.next else return c.next

/-- Link a worker into the ring. -/
def linkWorker (http worker : Ptr) (s : State) : Except Fault State := do
  let h ← s.read http
  if h.next = 0 then
    let s ← s.modify http fun h => { h with next := worker, cur := worker }
    s.modify worker fun w => { w with next := worker }
  else
    let cur ← lastLoop http s s.brk http
    let s ← s.modify cur fun c => { c with next := worker }
    let h ← s.read http
    s.modify worker fun w => { w with next := h.next }

/-- `evhttp_add_worker`: whether it returns an event base. -/
def evhttpAddWorker (supply : Supply) (http : Ptr) (s : State) : Except Fault (Bool × State) :=
  if !supply.base then .ok (false, s)
  else do
    let (worker, s) ← evhttpNew supply.memory s
    if !supply.pipe then
      let s ← evhttpFree worker s
      return (false, s)
    else
      let fds := s.npipes
      let s := { s with npipes := fds + 1, pipes := Function.update s.pipes fds 0 }
      let s ← s.modify worker fun w => { w with wakeup := fds, rcv := fds }
      let s ← linkWorker http worker s
      return (true, { s with workers := s.workers ++ [worker] })

/-! ## Accepted sockets -/

/-- `new_worker_task`. -/
def newWorkerTask (http : Ptr) (task : Task) (s : State) : Except Fault State :=
  s.modify http fun h => { h with tasks := h.tasks ++ [task] }

/-- `write(http->cur->wakeup, "", 1)`. -/
def writeWakeup (http : Ptr) (s : State) : Except Fault State := do
  let h ← s.read http
  let c ← s.read h.cur
  return { s with pipes := Function.update s.pipes c.wakeup (s.pipes c.wakeup + 1) }

/-- `http->cur = http->cur->next`. -/
def advanceCur (http : Ptr) (s : State) : Except Fault State := do
  let h ← s.read http
  let c ← s.read h.cur
  s.modify http fun h => { h with cur := c.next }

/-- `accept_socket`, once `accept` has returned a socket. -/
def acceptSocket (http : Ptr) (task : Task) (s : State) : Except Fault State := do
  let h ← s.read http
  if h.cur = 0 then return s.evhttpGetRequest http task
  else
    let s ← newWorkerTask h.cur task s
    let s ← writeWakeup http s
    advanceCur http s

/-- `read(fd, &byte, 1)` in `notify_worker`: whether there was a byte. -/
def readByte (http : Ptr) (s : State) : Except Fault (Bool × State) := do
  let h ← s.read http
  if s.pipes h.rcv = 0 then return (false, s)
  else return (true, { s with pipes := Function.update s.pipes h.rcv (s.pipes h.rcv - 1) })

/-- The locked part of `notify_worker`. On an empty queue `TAILQ_REMOVE` reads the
null pointer. -/
def removeTask (http : Ptr) (s : State) : Except Fault (Task × State) := do
  let h ← s.read http
  match h.tasks with
  | [] => .error .nullPointer
  | task :: tasks => return (task, s.write http { h with tasks := tasks })

/-- `notify_worker`. -/
def notifyWorker (http : Ptr) (s : State) : Except Fault State := do
  let (ready, s) ← readByte http s
  if !ready then return s
  else
    let (task, s) ← removeTask http s
    return s.evhttpGetRequest http task

/-! ## Sequences of calls -/

/-- A call that a program makes on its server, or a socket that it accepts. -/
inductive Call
  | addWorker (supply : Supply)
  | set (op : Op)
  | accept (task : Task)
  deriving DecidableEq, Repr

def Call.run (http : Ptr) : Call → State → Except Fault State
  | addWorker supply, s => Prod.snd <$> evhttpAddWorker supply http s
  | set op, s => op.run http s
  | accept task, s => acceptSocket http task s

/-- The calls one after the other. -/
def runCalls (http : Ptr) (calls : List Call) (s : State) : Except Fault State :=
  calls.foldlM (fun s call => call.run http s) s

/-- A new server alone in memory, at the address 1. -/
def start : State :=
  (evhttpNewObject ⟨fun _ => none, 1, fun _ => 0, 0, [], [], []⟩).2

end SearchTools.Libevent
