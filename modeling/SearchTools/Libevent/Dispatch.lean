/-
# Fair dispatch

The ring of the workers over any calls, and what a run of accepted sockets hands
to each worker: the acceptor goes around the ring, so no worker gets more than
one socket more than another.
-/

import SearchTools.Libevent.Handoff
import SearchTools.Library.Ring

namespace SearchTools.Libevent

open SearchTools.Library

variable {http : Ptr} {s s' : State}

/-- From `http->next` on, the links pass every added worker once, in the order of
addition, and come back; `http->cur` is one of the workers. -/
structure WorkerRing (http : Ptr) (s : State) : Prop where
  ring : IsRing s.link s.workers
  entry : ∃ h, s.heap http = some h ∧ s.workers.head? = some h.next ∧ h.cur ∈ s.workers

theorem Linked.workerRing (hs : Linked http s) (hworkers : s.workers ≠ []) :
    WorkerRing http s where
  ring := hs.ring
  entry := by
    rcases hs.main with ⟨h, hh, -⟩
    rcases hs.exists_workers hh hworkers with ⟨rest, hws⟩
    refine ⟨h, hh, ?_, hs.cur_mem hh hworkers⟩
    rw [hws, List.head?_cons]

/-! ## A run of accepted sockets -/

/-- The sockets of `log` were handed out since `s`, each to the worker named with
it, in turns around the ring. -/
structure HandedOut (http : Ptr) (s s' : State) (order : List Ptr) (log : List (Ptr × Task)) :
    Prop where
  linked : Linked http s'
  workers : s'.workers = s.workers
  ring : IsRing s'.link order
  perm : order.Perm s.workers
  members : ∀ e ∈ log, e.1 ∈ s.workers
  tasks : ∀ w ∈ s.workers,
    (s'.heap w).map Evhttp.tasks = (s.heap w).map (·.tasks ++ tasksOf w log)
  turn : ∃ h, s'.heap http = some h ∧ InTurn order h.cur fun w => (tasksOf w log).length

/-- Before the first socket the ring is read from the current worker. -/
theorem exists_handedOut (hs : Linked http s) (hworkers : s.workers ≠ []) :
    ∃ order, HandedOut http s s order [] := by
  rcases hs.main with ⟨h, hh, -⟩
  rcases hs.ring.exists_rotation (hs.cur_mem hh hworkers) with ⟨rest, hring, hperm⟩
  exact ⟨h.cur :: rest, {
    linked := hs
    workers := rfl
    ring := hring
    perm := hperm
    members := fun e he => absurd he List.not_mem_nil
    tasks := fun w _ => by simp [tasksOf]
    turn := ⟨h, hh, inTurn_start h.cur rest⟩ }⟩

/-- A socket for the current worker joins the end of its tasks. -/
theorem tasks_dispatched {h c : Evhttp} {log : List (Ptr × Task)} {w : Ptr}
    (hc : s'.heap h.cur = some c) (hmain : w ≠ http) (task : Task)
    (htasks : (s'.heap w).map Evhttp.tasks = (s.heap w).map (·.tasks ++ tasksOf w log)) :
    ((s'.dispatched http h c task).heap w).map Evhttp.tasks =
      (s.heap w).map (·.tasks ++ tasksOf w (log ++ [(h.cur, task)])) := by
  by_cases hcur : w = h.cur
  · subst hcur
    rw [hc] at htasks
    rw [State.heap_dispatched_cur hmain, tasksOf_concat_self]
    cases hheap : s.heap h.cur with
    | none =>
        rw [hheap] at htasks
        cases htasks
    | some e =>
        rw [hheap] at htasks
        have hold : c.tasks = e.tasks ++ tasksOf h.cur log := Option.some.inj htasks
        rw [Option.map_some, Option.map_some, hold, List.append_assoc]
  · rw [State.heap_dispatched_of_ne hmain hcur, tasksOf_concat_of_ne (Ne.symm hcur)]
    exact htasks

/-- One more socket. -/
theorem HandedOut.accept {order : List Ptr} {log : List (Ptr × Task)}
    (hout : HandedOut http s s' order log) (hworkers : s.workers ≠ []) (task : Task) :
    ∃ s'' w, acceptSocket http task s' = .ok s'' ∧
      HandedOut http s s'' order (log ++ [(w, task)]) := by
  rcases hout.turn with ⟨h, hh, hturn⟩
  have hworkers' : s'.workers ≠ [] := by
    rw [hout.workers]
    exact hworkers
  have hcur : h.cur ∈ s.workers := by
    rw [← hout.workers]
    exact hout.linked.cur_mem hh hworkers'
  have hmain : ∀ w ∈ s.workers, w ≠ http := by
    intro w hw
    rw [← hout.workers] at hw
    exact hout.linked.ne_main hw
  rcases acceptSocket_eq hout.linked hh hworkers' task with ⟨c, hc, -, haccept, hlinked⟩
  have hnext : s'.link h.cur = some c.next := by
    rw [State.link, hc]
    rfl
  refine ⟨_, h.cur, haccept, ?_⟩
  exact {
    linked := hlinked
    workers := hout.workers
    ring := by
      apply hout.ring.congr
      intro w hw
      exact State.link_dispatched hc (hmain w (hout.perm.mem_iff.mp hw)) task
    perm := hout.perm
    members := by
      intro e he
      rcases List.mem_append.mp he with he | he
      · exact hout.members e he
      · rw [List.mem_singleton.mp he]
        exact hcur
    tasks := fun w hw => tasks_dispatched hc (hmain w hw) task (hout.tasks w hw)
    turn := by
      refine ⟨_, State.heap_dispatched_main task, ?_⟩
      apply hturn.step hout.ring hnext
      · rw [tasksOf_concat_self, List.length_append]
        rfl
      · intro w hw
        rw [tasksOf_concat_of_ne (Ne.symm hw)] }

/-- Any number of further sockets. -/
theorem HandedOut.runCalls {order : List Ptr} {log : List (Ptr × Task)}
    (hout : HandedOut http s s' order log) (hworkers : s.workers ≠ []) (tasks : List Task) :
    ∃ s'' more, Libevent.runCalls http (tasks.map .accept) s' = .ok s'' ∧
      more.map Prod.snd = tasks ∧ HandedOut http s s'' order (log ++ more) := by
  induction tasks generalizing s' log with
  | nil =>
      refine ⟨s', [], rfl, rfl, ?_⟩
      rw [List.append_nil]
      exact hout
  | cons task tasks ih =>
      rcases hout.accept hworkers task with ⟨s₁, w, haccept, hout₁⟩
      rcases ih hout₁ with ⟨s'', more, hrun, hmore, hout'⟩
      refine ⟨s'', (w, task) :: more, ?_, ?_, ?_⟩
      · rw [List.map_cons, Libevent.runCalls, List.foldlM_cons, Call.run, haccept]
        exact hrun
      · rw [List.map_cons, hmore]
      · rw [List.append_cons]
        exact hout'

/-- What a run of accepted sockets from `s` to `s'` hands out: every socket goes to
one worker, and the numbers of any two workers differ by at most one. -/
structure Fair (s s' : State) (tasks : List Task) (log : List (Ptr × Task)) : Prop where
  all : log.map Prod.snd = tasks
  members : ∀ e ∈ log, e.1 ∈ s.workers
  given : ∀ w ∈ s.workers,
    (s'.heap w).map Evhttp.tasks = (s.heap w).map (·.tasks ++ tasksOf w log)
  balanced : ∀ w ∈ s.workers, ∀ v ∈ s.workers,
    (tasksOf w log).length ≤ (tasksOf v log).length + 1

theorem Linked.exists_fair (hs : Linked http s) (hworkers : s.workers ≠ []) (tasks : List Task) :
    ∃ s' log, runCalls http (tasks.map .accept) s = .ok s' ∧ Fair s s' tasks log := by
  rcases exists_handedOut hs hworkers with ⟨order, hout⟩
  rcases hout.runCalls hworkers tasks with ⟨s', log, hrun, htasks, hout'⟩
  rw [List.nil_append] at hout'
  refine ⟨s', log, hrun, htasks, hout'.members, hout'.tasks, ?_⟩
  intro w hw v hv
  rcases hout'.turn with ⟨h, -, hturn⟩
  exact hturn.le (hout'.perm.mem_iff.mpr hw) (hout'.perm.mem_iff.mpr hv)

/-- After any calls that do not run out of memory the added workers form the ring
of the server. A further call of `evhttp_add_worker` returns, and adds a worker at
the end or leaves ring and pointers alone. A run of accepted sockets is fair. -/
theorem exists_workerRing {calls : List Call} (hmemory : ∀ call ∈ calls, call.HasMemory) :
    ∃ s, runCalls 1 calls start = .ok s ∧ s.workers.length = calls.countP Call.adds ∧
      (0 < calls.countP Call.adds → WorkerRing 1 s) ∧
      (∀ supply, supply.memory = true → ∃ s', evhttpAddWorker supply 1 s = .ok (supply.adds, s') ∧
        if supply.adds then s'.workers = s.workers ++ [s.brk]
        else s'.heap = s.heap ∧ s'.workers = s.workers) ∧
      (0 < calls.countP Call.adds → ∀ tasks, ∃ s' log,
        runCalls 1 (tasks.map .accept) s = .ok s' ∧ Fair s s' tasks log) := by
  rcases exists_runCalls hmemory linked_start with ⟨s, hrun, hs, hlength⟩
  have hcount : s.workers.length = calls.countP Call.adds := by
    rw [hlength]
    exact Nat.zero_add _
  have hworkers : 0 < calls.countP Call.adds → s.workers ≠ [] := by
    intro hadds
    rw [← hcount] at hadds
    exact List.length_pos_iff.mp hadds
  refine ⟨s, hrun, hcount, fun hadds => hs.workerRing (hworkers hadds), ?_,
    fun hadds => hs.exists_fair (hworkers hadds)⟩
  intro supply hsupply
  rcases evhttpAddWorker_spec hs hsupply with ⟨s', hadd, heffect⟩
  refine ⟨s', hadd, ?_⟩
  cases hadds : supply.adds with
  | true =>
      rw [hadds, if_pos rfl] at heffect
      rw [if_pos rfl]
      exact heffect.workers
  | false =>
      rw [hadds, if_neg Bool.false_ne_true] at heffect
      rw [if_neg Bool.false_ne_true]
      exact ⟨heffect.heap, heffect.workers⟩

/-- Two workers with a socket in between. -/
theorem exists_workerRing_two :
    ∃ s, runCalls 1 [.addWorker ⟨true, true, true⟩, .accept ⟨[], 5⟩,
        .addWorker ⟨true, true, false⟩, .addWorker ⟨true, true, true⟩] start = .ok s ∧
      s.workers = [2, 4] ∧ WorkerRing 1 s := by
  rcases @exists_workerRing [.addWorker ⟨true, true, true⟩, .accept ⟨[], 5⟩,
    .addWorker ⟨true, true, false⟩, .addWorker ⟨true, true, true⟩] (by simp [Call.HasMemory]) with
      ⟨s, hrun, -, hring, -⟩
  refine ⟨s, hrun, ?_, hring (by decide)⟩
  obtain rfl := Except.ok.inj hrun
  rfl

end SearchTools.Libevent
