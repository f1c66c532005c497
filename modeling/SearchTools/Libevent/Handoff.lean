/-
# The handoff of accepted sockets

The acceptor and the workers, each in its own thread. `accept_socket` takes
three steps for a socket that it hands to a worker, and `notify_worker` three
steps to serve one; the steps of the threads interleave in any order. To each
worker the system is a mailbox, and every step is a step of at most one of them.
-/

import SearchTools.Libevent.Workers
import SearchTools.Library.Mailbox
import SearchTools.Library.Runs

namespace SearchTools.Libevent

open SearchTools.Library

/-! ## The threads -/

/-- Where the acceptor is in `accept_socket`. -/
inductive Acceptor
  | idle
  | appended
  | written
  deriving DecidableEq, Repr

/-- The memory, the place of every thread in its function, and a log of the
sockets with the workers that they were dispatched to. -/
structure Sys where
  state : State
  acceptor : Acceptor
  notify : Ptr → Consumer Task
  dispatched : List (Ptr × Task)

/-- The steps of the threads. -/
inductive Action
  | accept (task : Task)
  | writeWakeup
  | advanceCur
  | readByte (worker : Ptr)
  | removeTask (worker : Ptr)
  | serve (worker : Ptr)
  deriving DecidableEq, Repr

/-- One step. An action that its thread cannot take is disabled. -/
def Sys.act (http : Ptr) : Action → Sys → Except Fault (Option Sys)
  | .accept task, x =>
      if x.acceptor = .idle then do
        let h ← x.state.read http
        if h.cur = 0 then return some { x with state := x.state.evhttpGetRequest http task }
        else
          let s ← newWorkerTask h.cur task x.state
          return some { x with
            state := s
            acceptor := .appended
            dispatched := x.dispatched ++ [(h.cur, task)] }
      else return none
  | .writeWakeup, x =>
      if x.acceptor = .appended then do
        let s ← Libevent.writeWakeup http x.state
        return some { x with state := s, acceptor := .written }
      else return none
  | .advanceCur, x =>
      if x.acceptor = .written then do
        let s ← Libevent.advanceCur http x.state
        return some { x with state := s, acceptor := .idle }
      else return none
  | .readByte w, x =>
      if w ∈ x.state.workers ∧ x.notify w = .waiting then do
        let (ready, s) ← Libevent.readByte w x.state
        if ready then
          return some { x with state := s, notify := Function.update x.notify w .notified }
        else return none
      else return none
  | .removeTask w, x =>
      if x.notify w = .notified then do
        let (task, s) ← Libevent.removeTask w x.state
        return some { x with state := s, notify := Function.update x.notify w (.removed task) }
      else return none
  | .serve w, x =>
      match x.notify w with
      | .removed task =>
          return some { x with
            state := x.state.evhttpGetRequest w task
            notify := Function.update x.notify w .waiting }
      | _ => return none

/-- The threads before the first socket. -/
def Sys.init (s : State) : Sys := ⟨s, .idle, fun _ => .waiting, []⟩

/-- A step that was taken was enabled. -/
theorem of_enabled {enabled : Prop} [Decidable enabled] {step : Except Fault (Option Sys)} {x : Sys}
    (h : (if enabled then step else .ok none) = .ok (some x)) : enabled ∧ step = .ok (some x) := by
  by_cases henabled : enabled
  · rw [if_pos henabled] at h
    exact ⟨henabled, h⟩
  · rw [if_neg henabled] at h
    cases h

/-- Without interruption the steps of the acceptor are `accept_socket`. -/
theorem acceptSocket_of_act {http : Ptr} {task : Task} {x x₁ x₂ x₃ : Sys}
    (h₁ : x.act http (.accept task) = .ok (some x₁)) (h₂ : x₁.act http .writeWakeup = .ok (some x₂))
    (h₃ : x₂.act http .advanceCur = .ok (some x₃)) :
    acceptSocket http task x.state = .ok x₃.state := by
  obtain ⟨hidle, h₁⟩ := of_enabled h₁
  obtain ⟨happended, h₂⟩ := of_enabled h₂
  obtain ⟨-, h₃⟩ := of_enabled h₃
  obtain ⟨h, hread, h₁⟩ := bind_eq_ok.mp h₁
  by_cases hcur : h.cur = 0
  · rw [if_pos hcur] at h₁
    obtain rfl := Option.some.inj (Except.ok.inj h₁)
    rw [hidle] at happended
    cases happended
  · rw [if_neg hcur] at h₁
    obtain ⟨s₁, hnew, h₁⟩ := bind_eq_ok.mp h₁
    obtain ⟨s₂, hwrite, h₂⟩ := bind_eq_ok.mp h₂
    obtain ⟨s₃, hadvance, h₃⟩ := bind_eq_ok.mp h₃
    obtain rfl := Option.some.inj (Except.ok.inj h₁)
    obtain rfl := Option.some.inj (Except.ok.inj h₂)
    obtain rfl := Option.some.inj (Except.ok.inj h₃)
    rw [acceptSocket, hread]
    show (if h.cur = 0 then _ else newWorkerTask h.cur task x.state >>= fun s =>
      writeWakeup http s >>= advanceCur http) = _
    rw [if_neg hcur, hnew]
    show (writeWakeup http s₁ >>= advanceCur http) = _
    rw [hwrite]
    exact hadvance

/-- Without interruption the steps of a worker are `notify_worker`. -/
theorem notifyWorker_of_act {http w : Ptr} {x x₁ x₂ x₃ : Sys}
    (h₁ : x.act http (.readByte w) = .ok (some x₁))
    (h₂ : x₁.act http (.removeTask w) = .ok (some x₂))
    (h₃ : x₂.act http (.serve w) = .ok (some x₃)) :
    notifyWorker w x.state = .ok x₃.state := by
  obtain ⟨-, h₁⟩ := of_enabled h₁
  obtain ⟨-, h₂⟩ := of_enabled h₂
  obtain ⟨⟨ready, s₁⟩, hread, h₁⟩ := bind_eq_ok.mp h₁
  obtain ⟨⟨task, s₂⟩, hremove, h₂⟩ := bind_eq_ok.mp h₂
  cases ready with
  | false => cases h₁
  | true =>
      obtain rfl := Option.some.inj (Except.ok.inj h₁)
      obtain rfl := Option.some.inj (Except.ok.inj h₂)
      simp only [Sys.act, Function.update_self] at h₃
      obtain rfl := Option.some.inj (Except.ok.inj h₃)
      rw [notifyWorker, hread]
      show (removeTask w s₁ >>= fun r => .ok (r.2.evhttpGetRequest w r.1)) = _
      rw [hremove]
      rfl

/-- The tasks of a log that are for one worker. -/
def tasksOf (w : Ptr) (log : List (Ptr × Task)) : List Task :=
  (log.filter (·.1 = w)).map Prod.snd

theorem tasksOf_concat_self (w : Ptr) (log : List (Ptr × Task)) (task : Task) :
    tasksOf w (log ++ [(w, task)]) = tasksOf w log ++ [task] := by
  simp [tasksOf]

theorem tasksOf_concat_of_ne {w w' : Ptr} (hne : w' ≠ w) (log : List (Ptr × Task)) (task : Task) :
    tasksOf w (log ++ [(w', task)]) = tasksOf w log := by
  simp [tasksOf, hne]

/-! ## Mailboxes -/

/-- The mailbox of a worker. -/
def Sys.mailbox (http : Ptr) (x : Sys) (w : Ptr) : Option (Mailbox Task) := do
  let c ← x.state.heap w
  return {
    queue := c.tasks
    tokens := x.state.pipes c.rcv
    consumer := x.notify w
    owed := x.acceptor = .appended && (x.state.heap http).map Evhttp.cur = some w
    sent := tasksOf w x.dispatched
    served := tasksOf w x.state.requests }

/-- What one step does. -/
inductive Sys.Effect (http : Ptr) (x : Sys) : Action → Sys → Prop
  | accept {h c : Evhttp} (task : Task) (hacceptor : x.acceptor = .idle)
      (hh : x.state.heap http = some h) (hc : x.state.heap h.cur = some c) :
      Effect http x (.accept task) { x with
        state := x.state.write h.cur { c with tasks := c.tasks ++ [task] }
        acceptor := .appended
        dispatched := x.dispatched ++ [(h.cur, task)] }
  | writeWakeup {h c : Evhttp} (hacceptor : x.acceptor = .appended)
      (hh : x.state.heap http = some h) (hc : x.state.heap h.cur = some c) :
      Effect http x .writeWakeup { x with
        state := { x.state with
          pipes := Function.update x.state.pipes c.wakeup (x.state.pipes c.wakeup + 1) }
        acceptor := .written }
  | advanceCur {h c : Evhttp} (hacceptor : x.acceptor = .written)
      (hh : x.state.heap http = some h) (hc : x.state.heap h.cur = some c)
      (hnext : c.next ∈ x.state.workers) :
      Effect http x .advanceCur { x with
        state := x.state.write http { h with cur := c.next }
        acceptor := .idle }
  | readByte {w : Ptr} {c : Evhttp} {n : ℕ} (hw : w ∈ x.state.workers)
      (hnotify : x.notify w = .waiting) (hc : x.state.heap w = some c)
      (hpipe : x.state.pipes c.rcv = n + 1) :
      Effect http x (.readByte w) { x with
        state := { x.state with pipes := Function.update x.state.pipes c.rcv n }
        notify := Function.update x.notify w .notified }
  | removeTask {w : Ptr} {c : Evhttp} {task : Task} {tasks : List Task}
      (hnotify : x.notify w = .notified) (hc : x.state.heap w = some c)
      (htasks : c.tasks = task :: tasks) :
      Effect http x (.removeTask w) { x with
        state := x.state.write w { c with tasks := tasks }
        notify := Function.update x.notify w (.removed task) }
  | serve {w : Ptr} {task : Task} (hnotify : x.notify w = .removed task) :
      Effect http x (.serve w) { x with
        state := x.state.evhttpGetRequest w task
        notify := Function.update x.notify w .waiting }

/-- The workers form a ring, their mailboxes are balanced, and no one else takes
part. -/
structure Sys.Inv (http : Ptr) (x : Sys) : Prop where
  linked : Linked http x.state
  workers : x.state.workers ≠ []
  balanced : ∀ w ∈ x.state.workers, ∀ m ∈ x.mailbox http w, m.Balanced
  stray : ∀ w, w ∉ x.state.workers →
    x.notify w = .waiting ∧ tasksOf w x.dispatched = [] ∧ tasksOf w x.state.requests = []

variable {http : Ptr} {x x' : Sys}

theorem Sys.mailbox_eq {w : Ptr} {h c : Evhttp} (hh : x.state.heap http = some h)
    (hc : x.state.heap w = some c) :
    x.mailbox http w = some
      { queue := c.tasks
        tokens := x.state.pipes c.rcv
        consumer := x.notify w
        owed := x.acceptor = .appended && h.cur = w
        sent := tasksOf w x.dispatched
        served := tasksOf w x.state.requests } := by
  simp [mailbox, hh, hc]

namespace Sys.Inv

/-- Who serves a task is a worker. -/
theorem mem_of_notify (hx : x.Inv http) {w : Ptr} (hnotify : x.notify w ≠ .waiting) :
    w ∈ x.state.workers := by
  by_contra hw
  exact hnotify (hx.stray w hw).1

/-- A worker with a byte read finds a task in its queue. -/
theorem exists_task (hx : x.Inv http) {w : Ptr} (hnotify : x.notify w = .notified) :
    ∃ c task tasks, x.state.heap w = some c ∧ c.tasks = task :: tasks := by
  have hw : w ∈ x.state.workers := hx.mem_of_notify (by simp [hnotify])
  obtain ⟨h, hh, -⟩ := hx.linked.main
  obtain ⟨c, hc, -⟩ := hx.linked.worker w hw
  have hm := hx.balanced w hw _ (mailbox_eq hh hc)
  obtain ⟨task, tasks, htasks⟩ := hm.exists_cons hnotify
  exact ⟨c, task, tasks, hc, htasks⟩

/-- No step faults, and a step that is taken has its effect. -/
theorem act_spec (hx : x.Inv http) (action : Action) :
    x.act http action = .ok none ∨
      ∃ x', x.act http action = .ok (some x') ∧ x.Effect http action x' := by
  obtain ⟨h, hh, -⟩ := hx.linked.main
  have hnull := hx.linked.null
  have hread := State.read_eq_ok hnull hh
  obtain ⟨c, hc, hnext⟩ := hx.linked.exists_cur hh hx.workers
  have hcur : h.cur ≠ 0 := (hx.linked.cur_eq_zero_iff hh).not.mpr hx.workers
  cases action with
  | accept task =>
      by_cases hacceptor : x.acceptor = .idle
      · right
        refine ⟨_, ?_, .accept task hacceptor hh hc⟩
        simp only [act, hacceptor, if_true, hread, bind, Except.bind, hcur, if_false,
          newWorkerTask_eq hnull hc task]
        rfl
      · exact Or.inl (if_neg hacceptor)
  | writeWakeup =>
      by_cases hacceptor : x.acceptor = .appended
      · right
        refine ⟨_, ?_, .writeWakeup hacceptor hh hc⟩
        simp only [act, hacceptor, if_true, bind, Except.bind, writeWakeup_eq hnull hh hc]
        rfl
      · exact Or.inl (if_neg hacceptor)
  | advanceCur =>
      by_cases hacceptor : x.acceptor = .written
      · right
        refine ⟨_, ?_, .advanceCur hacceptor hh hc hnext⟩
        simp only [act, hacceptor, if_true, bind, Except.bind, advanceCur_eq hnull hh hc]
        rfl
      · exact Or.inl (if_neg hacceptor)
  | readByte w =>
      by_cases hready : w ∈ x.state.workers ∧ x.notify w = .waiting
      · obtain ⟨e, he, -⟩ := hx.linked.worker w hready.1
        have hread' := State.read_eq_ok hnull he
        cases hpipe : x.state.pipes e.rcv with
        | zero =>
            left
            simp only [act, hready, and_self, if_true, readByte, hread', hpipe, bind, Except.bind]
            rfl
        | succ n =>
            right
            refine ⟨_, ?_, .readByte hready.1 hready.2 he hpipe⟩
            simp only [act, hready, and_self, if_true, readByte, hread', hpipe, bind, Except.bind,
              Nat.succ_ne_zero, if_false]
            rfl
      · exact Or.inl (if_neg hready)
  | removeTask w =>
      by_cases hnotify : x.notify w = .notified
      · obtain ⟨e, task, tasks, he, htasks⟩ := hx.exists_task hnotify
        right
        refine ⟨_, ?_, .removeTask hnotify he htasks⟩
        simp only [act, hnotify, if_true, removeTask, State.read_eq_ok hnull he, htasks, bind,
          Except.bind]
        rfl
      · exact Or.inl (if_neg hnotify)
  | serve w =>
      cases hnotify : x.notify w with
      | removed task =>
          right
          refine ⟨_, ?_, .serve hnotify⟩
          simp only [act, hnotify]
          rfl
      | waiting => left; simp only [act, hnotify]; rfl
      | notified => left; simp only [act, hnotify]; rfl

/-- The ring and its workers stay as they are. -/
theorem linked_effect (hx : x.Inv http) {action : Action} (heffect : x.Effect http action x') :
    Linked http x'.state ∧ x'.state.workers = x.state.workers := by
  cases heffect with
  | accept task hacceptor hh hc => exact ⟨hx.linked.of_sameShape (.write hc rfl), rfl⟩
  | writeWakeup hacceptor hh hc => exact ⟨hx.linked.of_sameShape (.pipes _ _), rfl⟩
  | advanceCur hacceptor hh hc hnext => exact ⟨hx.linked.write_cur hh hnext, rfl⟩
  | readByte hw hnotify hc hpipe => exact ⟨hx.linked.of_sameShape (.pipes _ _), rfl⟩
  | removeTask hnotify hc htasks => exact ⟨hx.linked.of_sameShape (.write hc rfl), rfl⟩
  | serve hnotify => exact ⟨hx.linked.of_sameShape ⟨fun _ => rfl, rfl, rfl, rfl⟩, rfl⟩

/-- To a worker the step from `x` to `x'` is a step of its mailbox, or nothing. -/
def MailboxStep (http : Ptr) (x x' : Sys) (w : Ptr) : Prop :=
  ∃ m m', x.mailbox http w = some m ∧ x'.mailbox http w = some m' ∧
    (m' = m ∨ Mailbox.Step m m')

/-- `new_worker_task` appends to the queue of the current worker. -/
theorem mailbox_accept (hx : x.Inv http) {h c : Evhttp} (task : Task)
    (hacceptor : x.acceptor = .idle) (hh : x.state.heap http = some h)
    (hc : x.state.heap h.cur = some c) {w : Ptr} (hw : w ∈ x.state.workers) :
    MailboxStep http x { x with
      state := x.state.write h.cur { c with tasks := c.tasks ++ [task] }
      acceptor := .appended
      dispatched := x.dispatched ++ [(h.cur, task)] } w := by
  obtain ⟨e, he, -⟩ := hx.linked.worker w hw
  have hne := (hx.linked.ne_main (hx.linked.cur_mem hh hx.workers)).symm
  have hh' : (x.state.write h.cur { c with tasks := c.tasks ++ [task] }).heap http = some h :=
    (State.heap_write_of_ne hne).trans hh
  by_cases hcur : w = h.cur
  · subst hcur
    obtain rfl := Option.some.inj (he.symm.trans hc)
    refine ⟨_, _, mailbox_eq hh he, mailbox_eq hh' (State.heap_write_self _ _ _), Or.inr ?_⟩
    simp only [hacceptor, reduceCtorEq, decide_false, decide_true, Bool.false_and,
      Bool.and_self, tasksOf_concat_self]
    exact .append task rfl
  · refine ⟨_, _, mailbox_eq hh he, mailbox_eq hh' ((State.heap_write_of_ne hcur).trans he),
      Or.inl ?_⟩
    simp only [hacceptor, reduceCtorEq, decide_false, Ne.symm hcur, Bool.and_false,
      tasksOf_concat_of_ne (Ne.symm hcur)]
    rfl

/-- The byte goes to the pipe of the current worker. -/
theorem mailbox_writeWakeup (hx : x.Inv http) {h c : Evhttp} (hacceptor : x.acceptor = .appended)
    (hh : x.state.heap http = some h) (hc : x.state.heap h.cur = some c) {w : Ptr}
    (hw : w ∈ x.state.workers) :
    MailboxStep http x { x with
      state := { x.state with
        pipes := Function.update x.state.pipes c.wakeup (x.state.pipes c.wakeup + 1) }
      acceptor := .written } w := by
  have hmem := hx.linked.cur_mem hh hx.workers
  obtain ⟨e, he, -⟩ := hx.linked.worker w hw
  obtain ⟨d, hd, -, hwakeup, -⟩ := hx.linked.worker h.cur hmem
  obtain rfl := Option.some.inj (hc.symm.trans hd)
  refine ⟨_, _, mailbox_eq hh he, mailbox_eq hh he, ?_⟩
  by_cases hcur : w = h.cur
  · subst hcur
    obtain rfl := Option.some.inj (he.symm.trans hc)
    right
    simp only [hacceptor, hwakeup, Function.update_self, reduceCtorEq, decide_false,
      decide_true, Bool.false_and, Bool.and_self]
    exact .post rfl
  · left
    have hpipe : e.rcv ≠ c.wakeup := fun heq =>
      hcur (hx.linked.own_pipe w hw h.cur hmem e c he hc (heq.trans hwakeup))
    simp only [hacceptor, reduceCtorEq, decide_false, Ne.symm hcur, Bool.and_false,
      Function.update_of_ne hpipe]

/-- The next socket is for another worker: no mailbox changes. -/
theorem mailbox_advanceCur (hx : x.Inv http) {h c : Evhttp} (hacceptor : x.acceptor = .written)
    (hh : x.state.heap http = some h) {w : Ptr} (hw : w ∈ x.state.workers) :
    MailboxStep http x { x with
      state := x.state.write http { h with cur := c.next }
      acceptor := .idle } w := by
  obtain ⟨e, he, -⟩ := hx.linked.worker w hw
  refine ⟨_, _, mailbox_eq hh he, mailbox_eq (State.heap_write_self _ _ _)
    ((State.heap_write_of_ne (hx.linked.ne_main hw)).trans he), Or.inl ?_⟩
  simp only [hacceptor, reduceCtorEq, decide_false, Bool.false_and]
  rfl

/-- A worker takes a byte from its own pipe. -/
theorem mailbox_readByte (hx : x.Inv http) {v : Ptr} {c : Evhttp} {n : ℕ}
    (hv : v ∈ x.state.workers) (hnotify : x.notify v = .waiting) (hc : x.state.heap v = some c)
    (hpipe : x.state.pipes c.rcv = n + 1) {w : Ptr} (hw : w ∈ x.state.workers) :
    MailboxStep http x { x with
      state := { x.state with pipes := Function.update x.state.pipes c.rcv n }
      notify := Function.update x.notify v .notified } w := by
  obtain ⟨h, hh, -⟩ := hx.linked.main
  obtain ⟨e, he, -⟩ := hx.linked.worker w hw
  refine ⟨_, _, mailbox_eq hh he, mailbox_eq hh he, ?_⟩
  by_cases hcur : w = v
  · subst hcur
    obtain rfl := Option.some.inj (he.symm.trans hc)
    right
    simp only [hnotify, Function.update_self]
    exact .take rfl hpipe
  · left
    have hne : e.rcv ≠ c.rcv := fun heq => hcur (hx.linked.own_pipe w hw v hv e c he hc heq)
    simp only [Function.update_of_ne hcur, Function.update_of_ne hne]

/-- A worker removes the first task of its own queue. -/
theorem mailbox_removeTask (hx : x.Inv http) {v : Ptr} {c : Evhttp} {task : Task}
    {tasks : List Task} (hnotify : x.notify v = .notified) (hc : x.state.heap v = some c)
    (htasks : c.tasks = task :: tasks) {w : Ptr} (hw : w ∈ x.state.workers) :
    MailboxStep http x { x with
      state := x.state.write v { c with tasks := tasks }
      notify := Function.update x.notify v (.removed task) } w := by
  obtain ⟨h, hh, -⟩ := hx.linked.main
  obtain ⟨e, he, -⟩ := hx.linked.worker w hw
  have hv : v ∈ x.state.workers := hx.mem_of_notify (by simp [hnotify])
  have hne := (hx.linked.ne_main hv).symm
  have hh' : (x.state.write v { c with tasks := tasks }).heap http = some h :=
    (State.heap_write_of_ne hne).trans hh
  by_cases hcur : w = v
  · subst hcur
    obtain rfl := Option.some.inj (he.symm.trans hc)
    refine ⟨_, _, mailbox_eq hh he, mailbox_eq hh' (State.heap_write_self _ _ _), Or.inr ?_⟩
    simp only [hnotify, Function.update_self]
    exact .remove rfl htasks
  · refine ⟨_, _, mailbox_eq hh he, mailbox_eq hh' ((State.heap_write_of_ne hcur).trans he),
      Or.inl ?_⟩
    simp only [Function.update_of_ne hcur]
    rfl

/-- A worker serves the task in its hands. -/
theorem mailbox_serve (hx : x.Inv http) {v : Ptr} {task : Task}
    (hnotify : x.notify v = .removed task) {w : Ptr} (hw : w ∈ x.state.workers) :
    MailboxStep http x { x with
      state := x.state.evhttpGetRequest v task
      notify := Function.update x.notify v .waiting } w := by
  obtain ⟨h, hh, -⟩ := hx.linked.main
  obtain ⟨e, he, -⟩ := hx.linked.worker w hw
  refine ⟨_, _, mailbox_eq hh he, mailbox_eq hh he, ?_⟩
  by_cases hcur : w = v
  · subst hcur
    right
    simp only [State.evhttpGetRequest, hnotify, Function.update_self, tasksOf_concat_self]
    exact .serve rfl
  · left
    simp only [State.evhttpGetRequest, Function.update_of_ne hcur,
      tasksOf_concat_of_ne (Ne.symm hcur)]

/-- To each worker a step is a step of its mailbox, or nothing. -/
theorem mailbox_effect (hx : x.Inv http) {action : Action} (heffect : x.Effect http action x')
    {w : Ptr} (hw : w ∈ x.state.workers) : MailboxStep http x x' w := by
  cases heffect with
  | accept task hacceptor hh hc => exact hx.mailbox_accept task hacceptor hh hc hw
  | writeWakeup hacceptor hh hc => exact hx.mailbox_writeWakeup hacceptor hh hc hw
  | advanceCur hacceptor hh hc hnext => exact hx.mailbox_advanceCur hacceptor hh hw
  | readByte hv hnotify hc hpipe => exact hx.mailbox_readByte hv hnotify hc hpipe hw
  | removeTask hnotify hc htasks => exact hx.mailbox_removeTask hnotify hc htasks hw
  | serve hnotify => exact hx.mailbox_serve hnotify hw

/-- No step concerns who is not a worker. -/
theorem stray_effect (hx : x.Inv http) {action : Action} (heffect : x.Effect http action x')
    {w : Ptr} (hw : w ∉ x.state.workers) :
    x'.notify w = .waiting ∧ tasksOf w x'.dispatched = [] ∧ tasksOf w x'.state.requests = [] := by
  obtain ⟨hnotify, hdispatched, hrequests⟩ := hx.stray w hw
  have hne : ∀ v ∈ x.state.workers, v ≠ w := fun v hv heq => hw (heq ▸ hv)
  cases heffect with
  | accept task hacceptor hh hc =>
      refine ⟨hnotify, ?_, hrequests⟩
      rw [tasksOf_concat_of_ne (hne _ (hx.linked.cur_mem hh hx.workers))]
      exact hdispatched
  | writeWakeup hacceptor hh hc => exact ⟨hnotify, hdispatched, hrequests⟩
  | advanceCur hacceptor hh hc hnext => exact ⟨hnotify, hdispatched, hrequests⟩
  | @readByte v c n hv hnotify' hc hpipe =>
      have hkept := Function.update_of_ne (hne v hv).symm Consumer.notified x.notify
      exact ⟨hkept.trans hnotify, hdispatched, hrequests⟩
  | @removeTask v c task tasks hnotify' hc htasks =>
      have hv := hne v (hx.mem_of_notify (by simp [hnotify']))
      have hkept := Function.update_of_ne hv.symm (Consumer.removed task) x.notify
      exact ⟨hkept.trans hnotify, hdispatched, hrequests⟩
  | @serve v task hnotify' =>
      have hv := hne v (hx.mem_of_notify (by simp [hnotify']))
      have hkept := Function.update_of_ne hv.symm Consumer.waiting x.notify
      exact ⟨hkept.trans hnotify, hdispatched, (tasksOf_concat_of_ne hv _ _).trans hrequests⟩

theorem effect (hx : x.Inv http) {action : Action} (heffect : x.Effect http action x') :
    x'.Inv http := by
  obtain ⟨hlinked, hworkers⟩ := hx.linked_effect heffect
  refine ⟨hlinked, hworkers ▸ hx.workers, fun w hw => ?_, fun w hw => ?_⟩
  · rw [hworkers] at hw
    obtain ⟨m, m', hm, hm', hstep⟩ := hx.mailbox_effect heffect hw
    have hbalanced := hx.balanced w hw m hm
    intro m'' hm''
    obtain rfl := Option.some.inj (hm'.symm.trans hm'')
    rcases hstep with rfl | hstep
    · exact hbalanced
    · exact hbalanced.step hstep
  · rw [hworkers] at hw
    exact hx.stray_effect heffect hw

/-- Every step keeps the invariant. -/
theorem act (hx : x.Inv http) {action : Action} (h : x.act http action = .ok (some x')) :
    x'.Inv http := by
  rcases hx.act_spec action with hnone | ⟨y, hy, heffect⟩
  · rw [hnone] at h
    cases h
  · obtain rfl := Option.some.inj (Except.ok.inj (hy.symm.trans h))
    exact hx.effect heffect

/-- The invariant holds along every run. -/
theorem reaches (hx : x.Inv http) (h : Reaches (Sys.act http) x x') :
    x'.Inv http :=
  h.invariant (fun _ _ _ hx hact => hx.act hact) hx

end Sys.Inv

/-! ## Before the first socket -/

/-- No socket was accepted so far. -/
structure Quiet (s : State) : Prop where
  tasks : ∀ p e, s.heap p = some e → e.tasks = []
  pipes : ∀ fd, s.pipes fd = 0
  requests : s.requests = []

variable {s s' : State}

theorem Op.tasks_apply (op : Op) (e : Evhttp) : (op.apply e).tasks = e.tasks := by
  cases op with
  | delCb uri =>
      unfold Op.apply Op.own
      dsimp only
      split <;> rfl
  | _ => rfl

theorem Quiet.visit (hs : Quiet s) (op : Op) (p : Ptr) : Quiet (s.visit op.effect p) where
  tasks q e he := by
    by_cases hq : q = p
    · subst hq
      have he : op.effect (s.heap q) = some e := by simpa [State.visit] using he
      obtain ⟨e', he', rfl⟩ := Option.map_eq_some_iff.mp he
      exact (op.tasks_apply e').trans (hs.tasks q e' he')
    · rw [State.heap_visit_of_ne hq] at he
      exact hs.tasks q e he
  pipes := hs.pipes
  requests := hs.requests

theorem Quiet.foldl_visit (hs : Quiet s) (op : Op) (ws : List Ptr) :
    Quiet (ws.foldl (State.visit op.effect) s) := by
  induction ws generalizing s with
  | nil => exact hs
  | cons w ws ih => exact ih (hs.visit op w)

theorem Quiet.of_added (hs : Quiet s) (hlinked : Linked http s) (hadded : Added http s s') :
    Quiet s' where
  tasks p e he := by
    by_cases hbrk : p = s.brk
    · rw [hbrk, hadded.new] at he
      obtain rfl := Option.some.inj he
      rfl
    by_cases hhttp : p = http
    · obtain ⟨h, hh, -⟩ := hlinked.main
      rw [hhttp, hadded.main h hh] at he
      obtain rfl := Option.some.inj he
      split
      · exact hs.tasks http h hh
      · exact hs.tasks http h hh
    by_cases hlast : p ∈ s.workers.getLast?
    · obtain ⟨d, hd, -⟩ := hlinked.worker p (List.mem_of_getLast? hlast)
      rw [hadded.last p hlast d hd] at he
      obtain rfl := Option.some.inj he
      exact hs.tasks p d hd
    · rw [hadded.frame p hbrk hhttp hlast] at he
      exact hs.tasks p e he
  pipes fd := by
    rw [hadded.pipes]
    by_cases hfd : fd = s.npipes
    · rw [hfd, Function.update_self]
    · rw [Function.update_of_ne hfd]
      exact hs.pipes fd
  requests := hadded.requests.trans hs.requests

theorem Quiet.of_failed (hs : Quiet s) (hfailed : Failed s s') : Quiet s' where
  tasks := hfailed.heap ▸ hs.tasks
  pipes := hfailed.pipes ▸ hs.pipes
  requests := hfailed.requests.trans hs.requests

theorem Quiet.run (hs : Quiet s) (hlinked : Linked http s) {op : Op}
    (hrun : op.run http s = .ok s') : Quiet s' := by
  obtain ⟨h, hh, -⟩ := hlinked.main
  rw [run_eq op hlinked hh] at hrun
  obtain rfl := Except.ok.inj hrun
  split
  · exact hs.visit op http
  · exact (hs.visit op http).foldl_visit op _

/-- The calls that set a server up: all but those that accept a socket. -/
def Call.IsSetup : Call → Prop
  | accept _ => False
  | call => call.HasMemory

theorem Call.IsSetup.hasMemory {call : Call} (h : call.IsSetup) : call.HasMemory := by
  cases call with
  | accept task => exact h.elim
  | _ => exact h

theorem Quiet.call (hs : Quiet s) (hlinked : Linked http s) {call : Call} (hsetup : call.IsSetup)
    (hrun : call.run http s = .ok s') : Quiet s' := by
  cases call with
  | addWorker supply =>
      obtain ⟨s₁, hadd, hadded⟩ := evhttpAddWorker_spec hlinked hsetup.hasMemory
      rw [Call.run, hadd] at hrun
      obtain rfl := Except.ok.inj hrun
      split at hadded
      · exact hs.of_added hlinked hadded
      · exact hs.of_failed hadded
  | set op => exact hs.run hlinked hrun
  | accept task => exact hsetup.elim

/-- A server that was set up is ready for its first socket. -/
theorem Quiet.runCalls (hs : Quiet s) (hlinked : Linked http s) {calls : List Call}
    (hsetup : ∀ call ∈ calls, call.IsSetup) (hrun : runCalls http calls s = .ok s') :
    Quiet s' := by
  induction calls generalizing s with
  | nil =>
      obtain rfl := Except.ok.inj hrun
      exact hs
  | cons call calls ih =>
      obtain ⟨hcall, hcalls⟩ := List.forall_mem_cons.mp hsetup
      obtain ⟨s₁, hcall₁, hlinked₁, -⟩ := call.exists_run hcall.hasMemory hlinked
      rw [Libevent.runCalls, List.foldlM_cons, hcall₁] at hrun
      exact ih (hs.call hlinked hcall hcall₁) hlinked₁ hcalls hrun

theorem quiet_start : Quiet start where
  tasks p e he := by
    by_cases hp : p = 1
    · rw [hp, heap_start] at he
      obtain rfl := Option.some.inj he
      rfl
    · rw [heap_start_of_ne hp] at he
      cases he
  pipes _ := rfl
  requests := rfl

theorem Sys.Inv.init (hlinked : Linked http s) (hs : Quiet s) (hworkers : s.workers ≠ []) :
    (Sys.init s).Inv http where
  linked := hlinked
  workers := hworkers
  balanced w hw := by
    obtain ⟨h, hh, -⟩ := hlinked.main
    obtain ⟨c, hc, -⟩ := hlinked.worker w hw
    intro m hm
    have heq := @Sys.mailbox_eq http (Sys.init s) w h c hh hc
    obtain rfl := Option.some.inj (heq.symm.trans hm)
    refine ⟨?_, ?_⟩
    · show c.tasks.length = s.pipes c.rcv + 0 + 0
      rw [hs.tasks w c hc, hs.pipes]
      rfl
    · show [] = tasksOf w s.requests ++ [] ++ c.tasks
      rw [hs.tasks w c hc, hs.requests]
      rfl
  stray w _ := ⟨rfl, rfl, by
    show tasksOf w s.requests = []
    rw [hs.requests]
    rfl⟩

/-! ## Every socket is served by its worker -/

theorem count_tasksOf (w : Ptr) (task : Task) (log : List (Ptr × Task)) :
    (tasksOf w log).count task = log.count (w, task) := by
  induction log with
  | nil => rfl
  | cons entry log ih =>
      obtain ⟨v, task'⟩ := entry
      by_cases hv : v = w
      · subst hv
        have htasks : tasksOf v ((v, task') :: log) = task' :: tasksOf v log := by simp [tasksOf]
        rw [htasks, List.count_cons, List.count_cons, ih]
        simp
      · have htasks : tasksOf w ((v, task') :: log) = tasksOf w log := by simp [tasksOf, hv]
        have hne : (v, task') ≠ (w, task) := fun heq => hv (congrArg Prod.fst heq)
        rw [htasks, List.count_cons_of_ne hne, ih]

/-- What the handoff guarantees in a state. -/
structure HandsOver (http : Ptr) (x : Sys) : Prop where
  /-- No thread faults. -/
  noFault : ∀ action fault, x.act http action ≠ .error fault
  /-- A worker that is about to remove a task finds one. -/
  nonempty : ∀ w, x.notify w = .notified → ∃ c, x.state.heap w = some c ∧ c.tasks ≠ []
  /-- Every request is a socket dispatched to the worker that serves it, and each
  is served at most once. -/
  once : x.state.requests.Subperm x.dispatched
  /-- A worker serves its sockets in the order of acceptance. -/
  inOrder : ∀ w, tasksOf w x.state.requests <+: tasksOf w x.dispatched
  /-- Unless the acceptor is about to write to a pipe, a worker at rest with an
  empty pipe has served all of its sockets. -/
  settled : x.acceptor ≠ .appended → ∀ w ∈ x.state.workers, ∀ c, x.state.heap w = some c →
    x.state.pipes c.rcv = 0 → x.notify w = .waiting →
    c.tasks = [] ∧ tasksOf w x.state.requests = tasksOf w x.dispatched

theorem Sys.Inv.handsOver (hx : x.Inv http) : HandsOver http x := by
  obtain ⟨h, hh, -⟩ := hx.linked.main
  have hserved : ∀ w, tasksOf w x.state.requests <+: tasksOf w x.dispatched := by
    intro w
    by_cases hw : w ∈ x.state.workers
    · obtain ⟨c, hc, -⟩ := hx.linked.worker w hw
      exact (hx.balanced w hw _ (mailbox_eq hh hc)).isPrefix_served
    · obtain ⟨-, hdispatched, hrequests⟩ := hx.stray w hw
      have heq : tasksOf w x.state.requests = tasksOf w x.dispatched :=
        hrequests.trans hdispatched.symm
      exact heq ▸ List.prefix_rfl
  refine ⟨?_, ?_, ?_, hserved, ?_⟩
  · intro action fault hfault
    rcases hx.act_spec action with hnone | ⟨y, hy, -⟩
    · rw [hnone] at hfault
      cases hfault
    · rw [hy] at hfault
      cases hfault
  · intro w hnotify
    obtain ⟨c, task, tasks, hc, htasks⟩ := hx.exists_task hnotify
    exact ⟨c, hc, htasks ▸ List.cons_ne_nil task tasks⟩
  · rw [List.subperm_ext_iff]
    rintro ⟨w, task⟩ -
    rw [← count_tasksOf, ← count_tasksOf]
    exact (hserved w).sublist.count_le task
  · intro hacceptor w hw c hc hpipe hnotify
    have hm := hx.balanced w hw _ (mailbox_eq hh hc)
    exact hm.settled (by simp [hacceptor]) hpipe hnotify

/-- Whatever the interleaving of the acceptor and of one worker or more, accepted
sockets are handed over. -/
theorem handsOver_of_reaches {calls : List Call} (hsetup : ∀ call ∈ calls, call.IsSetup)
    (hadds : 0 < calls.countP Call.adds) :
    ∃ s, runCalls 1 calls start = .ok s ∧ s.workers.length = calls.countP Call.adds ∧
      ∀ x, Reaches (Sys.act 1) (.init s) x → HandsOver 1 x := by
  obtain ⟨s, hrun, hlinked, hlength⟩ :=
    exists_runCalls (fun call hcall => (hsetup call hcall).hasMemory) linked_start
  have hcount : s.workers.length = calls.countP Call.adds := by
    rw [hlength]
    exact Nat.zero_add _
  have hworkers : s.workers ≠ [] := List.length_pos_iff.mp (hcount ▸ hadds)
  have hquiet := quiet_start.runCalls linked_start hsetup hrun
  have hinit := Sys.Inv.init hlinked hquiet hworkers
  exact ⟨s, hrun, hcount, fun x hx => (hinit.reaches hx).handsOver⟩

/-- A socket is accepted and served. -/
theorem handsOver_of_reaches_served :
    ∃ s x, runCalls 1 [.addWorker ⟨true, true, true⟩] start = .ok s ∧
      Reaches (Sys.act 1) (.init s) x ∧ x.state.requests = [(2, ⟨[], 5⟩)] ∧ HandsOver 1 x := by
  obtain ⟨s, hrun, -, hall⟩ := @handsOver_of_reaches [.addWorker ⟨true, true, true⟩]
    (by simp [Call.IsSetup, Call.HasMemory]) (by decide)
  have hreach : ∃ x, Reaches (Sys.act 1) (.init s) x ∧ x.state.requests = [(2, ⟨[], 5⟩)] := by
    obtain rfl := Except.ok.inj hrun
    refine ⟨_, Relation.ReflTransGen.tail (.tail (.tail (.tail (.single
      ⟨.accept ⟨[], 5⟩, rfl⟩) ⟨.writeWakeup, rfl⟩) ⟨.readByte 2, rfl⟩) ⟨.removeTask 2, rfl⟩)
      ⟨.serve 2, rfl⟩, rfl⟩
  obtain ⟨x, hx, hrequests⟩ := hreach
  exact ⟨s, x, hrun, hx, hrequests, hall x hx⟩

end SearchTools.Libevent
