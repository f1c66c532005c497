/-
# Adding workers

What `evhttp_add_worker` and the three steps of `accept_socket` do to the ring
of the workers, and the ring over sequences of calls: after any calls the
workers that were added form a ring in the order of addition.
-/

import SearchTools.Libevent.Broadcast

namespace SearchTools.Libevent

open SearchTools.Library

variable {http : Ptr} {h : Evhttp} {s s' : State}

/-! ## A new worker -/

/-- What a successful call of `evhttp_add_worker` does: the new worker links to
the first one, and the last one to the new worker. -/
structure Added (http : Ptr) (s s' : State) : Prop where
  new : s'.heap s.brk = some
    { timeout := -1, next := s.workers.headD s.brk, wakeup := s.npipes, rcv := s.npipes }
  main : ∀ h, s.heap http = some h →
    s'.heap http = some (if s.workers = [] then { h with next := s.brk, cur := s.brk } else h)
  last : ∀ w ∈ s.workers.getLast?, ∀ e, s.heap w = some e →
    s'.heap w = some { e with next := s.brk }
  frame : ∀ p, p ≠ s.brk → p ≠ http → p ∉ s.workers.getLast? → s'.heap p = s.heap p
  brk : s'.brk = s.brk + 1
  npipes : s'.npipes = s.npipes + 1
  pipes : s'.pipes = Function.update s.pipes s.npipes 0
  requests : s'.requests = s.requests
  workers : s'.workers = s.workers ++ [s.brk]
  calls : s'.calls = s.calls

/-- The loop of `evhttp_add_worker` ends at the last worker. -/
theorem lastLoop_path {w p : Ptr} {rest : List Ptr} {fuel : ℕ} (hnull : s.heap 0 = none)
    (hh : s.heap http = some h) (hhead : h.next ∉ rest)
    (hchain : (p :: w :: rest ++ [h.next]).IsChain fun a b => s.link a = some b)
    (hfuel : rest.length < fuel) :
    lastLoop http s fuel p = .ok ((w :: rest).getLast (List.cons_ne_nil w rest)) := by
  induction rest generalizing p w fuel with
  | nil =>
      obtain ⟨hlink, hchain⟩ := List.isChain_cons_cons.mp hchain
      obtain ⟨c, hc, rfl⟩ := State.exists_read hnull hlink
      obtain ⟨c', hc', hnext⟩ := State.exists_read hnull (List.isChain_cons_cons.mp hchain).1
      cases fuel with
      | zero => exact absurd hfuel (Nat.not_lt_zero _)
      | succ fuel =>
          rw [lastLoop]
          simp only [hc, hc', State.read_eq_ok hnull hh, hnext, bind, Except.bind, ne_eq,
            not_true_eq_false, if_false]
          rfl
  | cons w' rest ih =>
      obtain ⟨hlink, hchain⟩ := List.isChain_cons_cons.mp hchain
      obtain ⟨c, hc, rfl⟩ := State.exists_read hnull hlink
      obtain ⟨c', hc', hnext⟩ := State.exists_read hnull (List.isChain_cons_cons.mp hchain).1
      have hne : w' ≠ h.next := fun heq => hhead (heq ▸ List.mem_cons_self)
      cases fuel with
      | zero => exact absurd hfuel (Nat.not_lt_zero _)
      | succ fuel =>
          rw [lastLoop]
          simp only [hc, hc', State.read_eq_ok hnull hh, hnext, bind, Except.bind]
          rw [if_pos hne]
          exact ih (fun hmem => hhead (List.mem_cons_of_mem _ hmem)) hchain
            (Nat.lt_of_succ_lt_succ hfuel)

/-- The memory once the new worker has its pipe. -/
def State.prepared (s : State) : State :=
  { s.write s.brk { timeout := -1, wakeup := s.npipes, rcv := s.npipes } with
    brk := s.brk + 1, npipes := s.npipes + 1, pipes := Function.update s.pipes s.npipes 0 }

theorem Linked.brk_ne_zero (hs : Linked http s) : s.brk ≠ 0 := by
  obtain ⟨d, hd⟩ := hs.exists_brk
  rw [hd]
  exact Nat.succ_ne_zero d

theorem Linked.ne_brk (hs : Linked http s) {p : Ptr} {e : Evhttp} (hp : s.heap p = some e) :
    p ≠ s.brk := Nat.ne_of_lt (hs.lt_brk hp)

theorem Linked.worker_ne_brk (hs : Linked http s) {w : Ptr} (hw : w ∈ s.workers) : w ≠ s.brk := by
  obtain ⟨e, he, -⟩ := hs.worker w hw
  exact hs.ne_brk he

theorem State.heap_prepared_of_ne {p : Ptr} (hp : p ≠ s.brk) : s.prepared.heap p = s.heap p :=
  State.heap_write_of_ne hp

theorem State.heap_prepared_brk (s : State) :
    s.prepared.heap s.brk = some { timeout := -1, wakeup := s.npipes, rcv := s.npipes } :=
  State.heap_write_self _ _ _

theorem Linked.null_prepared (hs : Linked http s) : s.prepared.heap 0 = none :=
  (State.heap_prepared_of_ne hs.brk_ne_zero.symm).trans hs.null

theorem Linked.link_prepared (hs : Linked http s) {w : Ptr} (hw : w ∈ s.workers) :
    s.prepared.link w = s.link w :=
  congrArg _ (State.heap_prepared_of_ne (hs.worker_ne_brk hw))

theorem evhttpAddWorker_prepared (hs : Linked http s) {supply : Supply} (hbase : supply.base = true)
    (hmemory : supply.memory = true) (hpipe : supply.pipe = true) :
    evhttpAddWorker supply http s =
      (linkWorker http s.brk s.prepared >>= fun s' =>
        .ok (true, { s' with workers := s'.workers ++ [s.brk] })) := by
  let s₁ : State := { s.write s.brk { timeout := -1 } with
    brk := s.brk + 1, npipes := s.npipes + 1, pipes := Function.update s.pipes s.npipes 0 }
  have hnull : s₁.heap 0 = none := (State.heap_write_of_ne hs.brk_ne_zero.symm).trans hs.null
  have hmodify : s₁.modify s.brk (fun w => { w with wakeup := s.npipes, rcv := s.npipes }) =
      .ok s.prepared := by
    rw [State.modify_eq_ok _ hnull (State.heap_write_self _ _ _)]
    simp only [s₁, State.write, State.prepared, Function.update_idem]
  rw [evhttpAddWorker, hbase, hmemory, hpipe]
  show (s₁.modify s.brk (fun w => { w with wakeup := s.npipes, rcv := s.npipes }) >>= fun s₂ =>
    linkWorker http s.brk s₂ >>= fun s' =>
      .ok (true, { s' with workers := s'.workers ++ [s.brk] })) = _
  rw [hmodify]
  rfl

/-- The first worker links to itself. -/
theorem linkWorker_first (hs : Linked http s) (hh : s.heap http = some h)
    (hworkers : s.workers = []) :
    ∃ s', linkWorker http s.brk s.prepared = .ok s' ∧
      Added http s { s' with workers := s'.workers ++ [s.brk] } := by
  have hne := hs.ne_brk hh
  have hne0 : http ≠ 0 := State.ne_of_heap hh hs.null
  have hmain : s.prepared.heap http = some h := (State.heap_prepared_of_ne hne).trans hh
  have hnext : h.next = 0 := by rw [hs.next_eq hh, hworkers, List.headD_nil]
  let s₁ := s.prepared.write http { h with next := s.brk, cur := s.brk }
  have hnull₁ : s₁.heap 0 = none := (State.heap_write_of_ne hne0.symm).trans hs.null_prepared
  have hbrk₁ : s₁.heap s.brk = some { timeout := -1, wakeup := s.npipes, rcv := s.npipes } :=
    (State.heap_write_of_ne hne.symm).trans s.heap_prepared_brk
  refine ⟨s₁.write s.brk
    { timeout := -1, next := s.brk, wakeup := s.npipes, rcv := s.npipes }, ?_, ?_⟩
  · rw [linkWorker]
    simp only [State.read_eq_ok hs.null_prepared hmain, hnext, if_true, bind, Except.bind,
      State.modify_eq_ok _ hs.null_prepared hmain]
    exact State.modify_eq_ok _ hnull₁ hbrk₁
  · exact {
      new := by rw [hworkers]; exact State.heap_write_self _ _ _
      main := by
        intro h' hh'
        obtain rfl := Option.some.inj (hh.symm.trans hh')
        rw [if_pos hworkers]
        exact (State.heap_write_of_ne hne).trans (State.heap_write_self _ _ _)
      last := by simp [hworkers]
      frame := fun p hp hp' _ =>
        (State.heap_write_of_ne hp).trans
          ((State.heap_write_of_ne hp').trans (State.heap_prepared_of_ne hp))
      brk := rfl
      npipes := rfl
      pipes := rfl
      requests := rfl
      workers := rfl
      calls := rfl }

/-- From the server on, the loop ends at the worker that was added last. -/
theorem lastLoop_prepared (hs : Linked http s) (hh : s.heap http = some h) {last : Ptr}
    (hlast : last ∈ s.workers.getLast?) :
    lastLoop http s.prepared s.prepared.brk http = .ok last := by
  have hmain : s.prepared.heap http = some h :=
    (State.heap_prepared_of_ne (hs.ne_brk hh)).trans hh
  obtain ⟨rest, hws⟩ := hs.exists_workers hh (List.ne_nil_of_mem (List.mem_of_getLast? hlast))
  have hpath := hs.path hh hws
  have hlink : s.prepared.link http = some h.next := by
    rw [State.link, hmain]
    rfl
  have hchain := isChain_next_congr hpath.chain fun p hp => hs.link_prepared (hws ▸ hp)
  have hfuel : rest.length < s.prepared.brk := by
    have hle := hs.length_workers_le
    rw [hws] at hle
    exact Nat.lt_of_lt_of_le (Nat.lt_succ_self _) (Nat.le_succ_of_le hle)
  rw [lastLoop_path hs.null_prepared hmain (List.nodup_cons.mp hpath.nodup).1
    (List.isChain_cons_cons.mpr ⟨hlink, hchain⟩) hfuel]
  rw [hws, List.getLast?_eq_some_getLast (List.cons_ne_nil _ rest)] at hlast
  exact congrArg _ (Option.some.inj hlast)

/-- A later worker goes between the last one and the first one. -/
theorem linkWorker_next (hs : Linked http s) (hh : s.heap http = some h)
    (hworkers : s.workers ≠ []) :
    ∃ s', linkWorker http s.brk s.prepared = .ok s' ∧
      Added http s { s' with workers := s'.workers ++ [s.brk] } := by
  have hne := hs.ne_brk hh
  have hmain : s.prepared.heap http = some h := (State.heap_prepared_of_ne hne).trans hh
  obtain ⟨last, hlast⟩ : ∃ last, last ∈ s.workers.getLast? :=
    ⟨_, List.getLast?_eq_some_getLast hworkers⟩
  have hmem : last ∈ s.workers := List.mem_of_getLast? hlast
  obtain ⟨e, he, -⟩ := hs.worker last hmem
  have hlastne := hs.worker_ne_brk hmem
  have hprepared : s.prepared.heap last = some e := (State.heap_prepared_of_ne hlastne).trans he
  have hloop := lastLoop_prepared hs hh hlast
  let s₁ := s.prepared.write last { e with next := s.brk }
  have hnull₁ : s₁.heap 0 = none :=
    (State.heap_write_of_ne (hs.ne_zero hmem).symm).trans hs.null_prepared
  have hmain₁ : s₁.heap http = some h := (State.heap_write_of_ne (hs.ne_main hmem).symm).trans hmain
  have hbrk₁ : s₁.heap s.brk = some { timeout := -1, wakeup := s.npipes, rcv := s.npipes } :=
    (State.heap_write_of_ne hlastne.symm).trans s.heap_prepared_brk
  obtain ⟨rest, hws⟩ := hs.exists_workers hh hworkers
  have hnext0 : ¬ h.next = 0 := hs.ne_zero (hws ▸ List.mem_cons_self)
  refine ⟨s₁.write s.brk
    { timeout := -1, next := h.next, wakeup := s.npipes, rcv := s.npipes }, ?_, ?_⟩
  · rw [linkWorker]
    simp only [State.read_eq_ok hs.null_prepared hmain, hnext0, if_false, bind, Except.bind, hloop,
      State.modify_eq_ok _ hs.null_prepared hprepared]
    show ((s₁.read http) >>= fun h =>
      s₁.modify s.brk fun w => { w with next := h.next }) = _
    rw [State.read_eq_ok hnull₁ hmain₁]
    exact State.modify_eq_ok _ hnull₁ hbrk₁
  · exact {
      new := by
        rw [hws, List.headD_cons]
        exact State.heap_write_self _ _ _
      main := by
        intro h' hh'
        obtain rfl := Option.some.inj (hh.symm.trans hh')
        rw [if_neg hworkers]
        exact (State.heap_write_of_ne hne).trans hmain₁
      last := by
        intro w hw e' he'
        obtain rfl : last = w := Option.some.inj (hlast.symm.trans hw)
        obtain rfl := Option.some.inj (he.symm.trans he')
        exact (State.heap_write_of_ne hlastne).trans (State.heap_write_self _ _ _)
      frame := fun p hp _ hp' =>
        (State.heap_write_of_ne hp).trans
          ((State.heap_write_of_ne (ne_of_mem_of_not_mem hlast hp').symm).trans
            (State.heap_prepared_of_ne hp))
      brk := rfl
      npipes := rfl
      pipes := rfl
      requests := rfl
      workers := rfl
      calls := rfl }

/-- An object of the ring after a new worker: its settings and its pipe are as
they were. -/
theorem Added.exists_worker (hs : Linked http s) (hadded : Added http s s') {w : Ptr}
    (hw : w ∈ s.workers) {e : Evhttp} (he : s.heap w = some e) :
    ∃ next, s'.heap w = some { e with next := next } := by
  by_cases hlast : w ∈ s.workers.getLast?
  · exact ⟨s.brk, hadded.last w hlast e he⟩
  · exact ⟨e.next, (hadded.frame w (hs.ne_brk he) (hs.ne_main hw) hlast).trans he⟩

theorem Added.isRing (hs : Linked http s) (hadded : Added http s s') :
    IsRing s'.link s'.workers := by
  rw [hadded.workers]
  rcases List.eq_nil_or_concat' s.workers with hworkers | ⟨init, last, hworkers⟩
  · have hnew := hadded.new
    rw [hworkers] at hnew ⊢
    exact isRing_singleton (by rw [State.link, hnew]; rfl)
  · obtain ⟨head, hhead⟩ : ∃ head, head ∈ s.workers.head? :=
      ⟨_, List.head?_eq_some_head (by simp [hworkers])⟩
    have hnew := hadded.new
    have hring := hs.ring
    have hlast : last ∈ s.workers.getLast? := by simp [hworkers]
    have hmem : last ∈ s.workers := List.mem_of_getLast? hlast
    obtain ⟨e, he, -⟩ := hs.worker last hmem
    have hnotMem : s.brk ∉ s.workers := fun hmem => hs.worker_ne_brk hmem rfl
    have hinit : ∀ w ∈ init, s'.link w = s.link w := by
      intro w hw
      have hmem : w ∈ s.workers := by simp [hworkers, hw]
      have hnodup := hring.nodup
      rw [hworkers, List.nodup_append] at hnodup
      have hne : w ≠ last := hnodup.2.2 w hw last List.mem_cons_self
      refine congrArg _ (hadded.frame w (hs.worker_ne_brk hmem) (hs.ne_main hmem) ?_)
      rw [Option.mem_def, Option.mem_def.mp hlast]
      exact fun heq => hne (Option.some.inj heq).symm
    rw [List.headD_eq_head?_getD, Option.mem_def.mp hhead] at hnew
    rw [hworkers] at hring hhead hnotMem ⊢
    refine hring.concat hhead hnotMem hinit ?_ ?_
    · rw [State.link, hadded.last last hlast e he]
      rfl
    · rw [State.link, hnew]
      rfl

theorem Added.mem_workers (hadded : Added http s s') {w : Ptr} :
    w ∈ s'.workers ↔ w ∈ s.workers ∨ w = s.brk := by
  rw [hadded.workers, List.mem_append, List.mem_singleton]

/-- Nothing appears in memory but the new worker. -/
theorem Added.eq_none (hs : Linked http s) (hadded : Added http s s') {p : Ptr} (hp : p ≠ s.brk)
    (hnone : s.heap p = none) : s'.heap p = none := by
  obtain ⟨h, hh, -⟩ := hs.main
  refine (hadded.frame p hp (State.ne_of_heap hh hnone).symm fun hlast => ?_).trans hnone
  obtain ⟨e, he, -⟩ := hs.worker p (List.mem_of_getLast? hlast)
  exact State.ne_of_heap he hnone rfl

/-- The pipes of the workers are those they had, and a pipe of its own for the new
worker. -/
theorem Added.own_pipe (hs : Linked http s) (hadded : Added http s s') :
    ∀ w ∈ s'.workers, ∀ w' ∈ s'.workers, ∀ e e', s'.heap w = some e → s'.heap w' = some e' →
      e.rcv = e'.rcv → w = w' := by
  have hold : ∀ w ∈ s.workers, ∀ e, s'.heap w = some e →
      ∃ e₀, s.heap w = some e₀ ∧ e.rcv = e₀.rcv ∧ e.rcv < s.npipes := by
    intro w hw e he
    obtain ⟨e₀, he₀, -, -, hlt⟩ := hs.worker w hw
    obtain ⟨next, he'⟩ := hadded.exists_worker hs hw he₀
    obtain rfl := Option.some.inj (he'.symm.trans he)
    exact ⟨e₀, he₀, rfl, hlt⟩
  have hnew : ∀ e, s'.heap s.brk = some e → e.rcv = s.npipes := by
    intro e he
    obtain rfl := Option.some.inj (hadded.new.symm.trans he)
    rfl
  intro w hw w' hw' e e' he he' hrcv
  rcases hadded.mem_workers.mp hw with hw | rfl <;> rcases hadded.mem_workers.mp hw' with hw' | rfl
  · obtain ⟨e₀, he₀, heq, -⟩ := hold w hw e he
    obtain ⟨e₀', he₀', heq', -⟩ := hold w' hw' e' he'
    exact hs.own_pipe w hw w' hw' e₀ e₀' he₀ he₀' (heq.symm.trans (hrcv.trans heq'))
  · obtain ⟨-, -, -, hlt⟩ := hold w hw e he
    exact absurd (hrcv.trans (hnew e' he')) (Nat.ne_of_lt hlt)
  · obtain ⟨-, -, -, hlt⟩ := hold w' hw' e' he'
    exact absurd (hrcv.symm.trans (hnew e he)) (Nat.ne_of_lt hlt)
  · rfl

/-- The server and the workers it had form the ring with the new worker. -/
theorem Linked.of_added (hs : Linked http s) (hadded : Added http s s') : Linked http s' where
  null := hadded.eq_none hs hs.brk_ne_zero.symm hs.null
  fresh := by
    intro p hp
    rw [hadded.brk] at hp
    exact hadded.eq_none hs (Nat.ne_of_gt hp) (hs.fresh p (Nat.le_of_succ_le hp))
  main := by
    obtain ⟨h, hh, hnext, -, hcur⟩ := hs.main
    refine ⟨_, hadded.main h hh, ?_⟩
    rw [hadded.workers]
    by_cases hworkers : s.workers = []
    · simp [hworkers]
    · rw [if_neg hworkers]
      obtain ⟨w, rest, hws⟩ := List.exists_cons_of_ne_nil hworkers
      refine ⟨?_, fun hnil => absurd hnil (by simp), fun _ => ?_⟩
      · rw [hnext, hws]
        rfl
      · exact List.mem_append_left _ (hcur hworkers)
  main_notMem := by
    obtain ⟨h, hh, -⟩ := hs.main
    intro hmem
    rcases hadded.mem_workers.mp hmem with hmem | hbrk
    · exact hs.main_notMem hmem
    · exact hs.ne_brk hh hbrk
  ring := hadded.isRing hs
  worker := by
    intro w hw
    rcases hadded.mem_workers.mp hw with hw | rfl
    · obtain ⟨e, he, hcur, hpipe, hlt⟩ := hs.worker w hw
      obtain ⟨next, he'⟩ := hadded.exists_worker hs hw he
      exact ⟨_, he', hcur, hpipe, hadded.npipes ▸ Nat.lt_succ_of_lt hlt⟩
    · exact ⟨_, hadded.new, rfl, rfl, hadded.npipes ▸ Nat.lt_succ_self _⟩
  own_pipe := hadded.own_pipe hs

/-- What a failed call of `evhttp_add_worker` does: it frees what it made. -/
structure Failed (s s' : State) : Prop where
  heap : s'.heap = s.heap
  brk : s.brk ≤ s'.brk
  npipes : s'.npipes = s.npipes
  pipes : s'.pipes = s.pipes
  requests : s'.requests = s.requests
  workers : s'.workers = s.workers

theorem Linked.of_failed (hs : Linked http s) (hfailed : Failed s s') : Linked http s' where
  null := hfailed.heap ▸ hs.null
  fresh p hp := hfailed.heap ▸ hs.fresh p (Nat.le_trans hfailed.brk hp)
  main := hfailed.heap ▸ hfailed.workers ▸ hs.main
  main_notMem := hfailed.workers ▸ hs.main_notMem
  ring := by
    rw [hfailed.workers]
    exact hs.ring.congr fun w _ => congrArg _ (congrFun hfailed.heap w)
  worker := hfailed.heap ▸ hfailed.workers ▸ hfailed.npipes ▸ hs.worker
  own_pipe := hfailed.heap ▸ hfailed.workers ▸ hs.own_pipe

/-- Whether `evhttp_add_worker` succeeds, given memory. -/
def Supply.adds (supply : Supply) : Bool := supply.base && supply.pipe

theorem evhttpAddWorker_spec (hs : Linked http s) {supply : Supply}
    (hmemory : supply.memory = true) :
    ∃ s', evhttpAddWorker supply http s = .ok (supply.adds, s') ∧
      if supply.adds then Added http s s' else Failed s s' := by
  obtain ⟨h, hh, -⟩ := hs.main
  cases hbase : supply.base with
  | false =>
      refine ⟨s, ?_, ?_⟩
      · rw [evhttpAddWorker, Supply.adds, hbase]
        rfl
      · rw [Supply.adds, hbase]
        exact ⟨rfl, Nat.le_refl _, rfl, rfl, rfl, rfl⟩
  | true =>
      cases hpipe : supply.pipe with
      | false =>
          let s₁ : State := { s.write s.brk { timeout := -1 } with brk := s.brk + 1 }
          have hnull : s₁.heap 0 = none :=
            (State.heap_write_of_ne hs.brk_ne_zero.symm).trans hs.null
          have hfree : evhttpFree s.brk s₁ = .ok (s₁.visit freed s.brk) :=
            evhttpFreeWithin_worker _ hnull (State.heap_write_self _ _ _) rfl
          refine ⟨s₁.visit freed s.brk, ?_, ?_⟩
          · rw [evhttpAddWorker, Supply.adds, hbase, hmemory, hpipe]
            show (evhttpFree s.brk s₁ >>= fun s' => .ok (false, s')) = _
            rw [hfree]
            rfl
          · rw [Supply.adds, hbase, hpipe]
            refine ⟨?_, Nat.le_succ _, rfl, rfl, rfl, rfl⟩
            show Function.update (Function.update s.heap s.brk _) s.brk none = s.heap
            rw [Function.update_idem, ← hs.fresh s.brk (Nat.le_refl _), Function.update_eq_self]
      | true =>
          obtain ⟨s', hlink, hadded⟩ : ∃ s', linkWorker http s.brk s.prepared = .ok s' ∧
              Added http s { s' with workers := s'.workers ++ [s.brk] } := by
            by_cases hworkers : s.workers = []
            · exact linkWorker_first hs hh hworkers
            · exact linkWorker_next hs hh hworkers
          refine ⟨{ s' with workers := s'.workers ++ [s.brk] }, ?_, ?_⟩
          · rw [evhttpAddWorker_prepared hs hbase hmemory hpipe, hlink, Supply.adds, hbase, hpipe]
            rfl
          · rw [Supply.adds, hbase, hpipe]
            exact hadded

/-! ## Accepted sockets -/

theorem SameShape.write {p : Ptr} {e e' : Evhttp} (hp : s.heap p = some e)
    (hshape : e'.shape = e.shape) : SameShape s (s.write p e') where
  heap q := by
    by_cases hq : q = p
    · rw [hq, State.heap_write_self, hp]
      exact congrArg some hshape
    · rw [State.heap_write_of_ne hq]
  brk := rfl
  npipes := rfl
  workers := rfl

theorem SameShape.pipes (s : State) (pipes : ℕ → ℕ) : SameShape s { s with pipes := pipes } :=
  ⟨fun _ => rfl, rfl, rfl, rfl⟩

theorem newWorkerTask_eq (hnull : s.heap 0 = none) {w : Ptr} {c : Evhttp} (hc : s.heap w = some c)
    (task : Task) :
    newWorkerTask w task s = .ok (s.write w { c with tasks := c.tasks ++ [task] }) :=
  State.modify_eq_ok _ hnull hc

theorem writeWakeup_eq (hnull : s.heap 0 = none) (hh : s.heap http = some h) {c : Evhttp}
    (hc : s.heap h.cur = some c) :
    writeWakeup http s =
      .ok { s with pipes := Function.update s.pipes c.wakeup (s.pipes c.wakeup + 1) } := by
  rw [writeWakeup]
  simp only [State.read_eq_ok hnull hh, State.read_eq_ok hnull hc, bind, Except.bind]
  rfl

theorem advanceCur_eq (hnull : s.heap 0 = none) (hh : s.heap http = some h) {c : Evhttp}
    (hc : s.heap h.cur = some c) :
    advanceCur http s = .ok (s.write http { h with cur := c.next }) := by
  rw [advanceCur]
  simp only [State.read_eq_ok hnull hh, State.read_eq_ok hnull hc, bind, Except.bind]
  exact State.modify_eq_ok _ hnull hh

/-- The server may point to any of its workers. -/
theorem Linked.write_cur (hs : Linked http s) (hh : s.heap http = some h) {w : Ptr}
    (hw : w ∈ s.workers) : Linked http (s.write http { h with cur := w }) := by
  have hkept : ∀ p ∈ s.workers, (s.write http { h with cur := w }).heap p = s.heap p :=
    fun p hp => State.heap_write_of_ne (hs.ne_main hp)
  have hfree : ∀ p, s.heap p = none → (s.write http { h with cur := w }).heap p = none := by
    intro p hp
    exact (State.heap_write_of_ne (State.ne_of_heap hh hp).symm).trans hp
  have hnext := hs.next_eq hh
  exact {
    null := hfree 0 hs.null
    fresh := fun p hp => hfree p (hs.fresh p hp)
    main := ⟨{ h with cur := w }, State.heap_write_self _ _ _, hnext,
      fun hnil => absurd hw (List.eq_nil_iff_forall_not_mem.mp hnil w), fun _ => hw⟩
    main_notMem := hs.main_notMem
    ring := hs.ring.congr fun p hp => congrArg _ (hkept p hp)
    worker := fun p hp => hkept p hp ▸ hs.worker p hp
    own_pipe := by
      intro p hp p' hp' e e' he he'
      rw [hkept p hp] at he
      rw [hkept p' hp'] at he'
      exact hs.own_pipe p hp p' hp' e e' he he' }

/-- The current worker is in memory and links to a worker. -/
theorem Linked.exists_cur (hs : Linked http s) (hh : s.heap http = some h)
    (hworkers : s.workers ≠ []) : ∃ c, s.heap h.cur = some c ∧ c.next ∈ s.workers := by
  have hmem := hs.cur_mem hh hworkers
  obtain ⟨c, hc, -⟩ := hs.worker h.cur hmem
  obtain ⟨w, hw, hlink⟩ := hs.ring.exists_next hmem
  rw [State.link, hc] at hlink
  exact ⟨c, hc, Option.some.inj hlink ▸ hw⟩

/-- The memory once a socket was handed to the current worker `c`. -/
def State.dispatched (s : State) (http : Ptr) (h c : Evhttp) (task : Task) : State :=
  { s.write h.cur { c with tasks := c.tasks ++ [task] } with
    pipes := Function.update s.pipes c.wakeup (s.pipes c.wakeup + 1) }.write http
    { h with cur := c.next }

theorem State.heap_dispatched_main {c : Evhttp} (task : Task) :
    (s.dispatched http h c task).heap http = some { h with cur := c.next } :=
  State.heap_write_self _ _ _

theorem State.heap_dispatched_cur {c : Evhttp} (hmain : h.cur ≠ http) (task : Task) :
    (s.dispatched http h c task).heap h.cur = some { c with tasks := c.tasks ++ [task] } :=
  (State.heap_write_of_ne hmain).trans (State.heap_write_self _ _ _)

theorem State.heap_dispatched_of_ne {c : Evhttp} {p : Ptr} (hmain : p ≠ http) (hcur : p ≠ h.cur)
    (task : Task) : (s.dispatched http h c task).heap p = s.heap p :=
  (State.heap_write_of_ne hmain).trans (State.heap_write_of_ne hcur)

/-- The link of no worker changes when a socket is handed out. -/
theorem State.link_dispatched {c : Evhttp} {p : Ptr} (hc : s.heap h.cur = some c) (hmain : p ≠ http)
    (task : Task) : (s.dispatched http h c task).link p = s.link p := by
  by_cases hcur : p = h.cur
  · subst hcur
    rw [State.link, State.link, State.heap_dispatched_cur hmain, hc]
    rfl
  · exact congrArg _ (State.heap_dispatched_of_ne hmain hcur task)

/-- `accept_socket` on a server with workers: the current worker gets the socket, and
the next one is current. -/
theorem acceptSocket_eq (hs : Linked http s) (hh : s.heap http = some h)
    (hworkers : s.workers ≠ []) (task : Task) :
    ∃ c, s.heap h.cur = some c ∧ c.next ∈ s.workers ∧
      acceptSocket http task s = .ok (s.dispatched http h c task) ∧
      Linked http (s.dispatched http h c task) := by
  obtain ⟨c, hc, hnext⟩ := hs.exists_cur hh hworkers
  have hne : http ≠ h.cur := (hs.ne_main (hs.cur_mem hh hworkers)).symm
  let c' : Evhttp := { c with tasks := c.tasks ++ [task] }
  let s₁ : State := s.write h.cur c'
  have hs₁ : Linked http s₁ := hs.of_sameShape (.write hc rfl)
  have hh₁ : s₁.heap http = some h := (State.heap_write_of_ne hne).trans hh
  have hc₁ : s₁.heap h.cur = some c' := State.heap_write_self _ _ _
  let s₂ : State :=
    { s₁ with pipes := Function.update s₁.pipes c'.wakeup (s₁.pipes c'.wakeup + 1) }
  have hs₂ : Linked http s₂ := hs₁.of_sameShape (.pipes s₁ _)
  refine ⟨c, hc, hnext, ?_, hs₂.write_cur hh₁ hnext⟩
  rw [acceptSocket]
  simp only [State.read_eq_ok hs.null hh, bind, Except.bind]
  rw [if_neg ((hs.cur_eq_zero_iff hh).not.mpr hworkers), newWorkerTask_eq hs.null hc task]
  show (writeWakeup http s₁ >>= fun s => advanceCur http s) = _
  rw [writeWakeup_eq hs₁.null hh₁ hc₁]
  exact @advanceCur_eq http h s₂ hs₂.null hh₁ c' hc₁

/-- `accept_socket` leaves the workers as they are. -/
theorem exists_acceptSocket (hs : Linked http s) (task : Task) :
    ∃ s', acceptSocket http task s = .ok s' ∧ Linked http s' ∧ s'.workers = s.workers := by
  obtain ⟨h, hh, -⟩ := hs.main
  by_cases hworkers : s.workers = []
  · rw [acceptSocket]
    simp only [State.read_eq_ok hs.null hh, bind, Except.bind]
    rw [if_pos ((hs.cur_eq_zero_iff hh).mpr hworkers)]
    exact ⟨_, rfl, hs.of_sameShape ⟨fun _ => rfl, rfl, rfl, rfl⟩, rfl⟩
  · obtain ⟨c, -, -, haccept, hs'⟩ := acceptSocket_eq hs hh hworkers task
    exact ⟨_, haccept, hs', rfl⟩

/-! ## Sequences of calls -/

/-- The calls that add a worker. -/
def Call.adds : Call → Bool
  | addWorker supply => supply.adds
  | _ => false

/-- The calls that do not run out of memory. -/
def Call.HasMemory : Call → Prop
  | addWorker supply => supply.memory = true
  | _ => True

theorem Call.exists_run {call : Call} (hmemory : call.HasMemory) (hs : Linked http s) :
    ∃ s', call.run http s = .ok s' ∧ Linked http s' ∧
      s'.workers.length = s.workers.length + if call.adds then 1 else 0 := by
  cases call with
  | addWorker supply =>
      obtain ⟨s', hrun, hadded⟩ := evhttpAddWorker_spec hs hmemory
      refine ⟨s', ?_, ?_⟩
      · rw [Call.run, hrun]
        rfl
      · cases hadds : supply.adds with
        | false =>
            rw [hadds, if_neg Bool.false_ne_true] at hadded
            refine ⟨hs.of_failed hadded, ?_⟩
            rw [Call.adds, hadds, hadded.workers]
            rfl
        | true =>
            rw [hadds, if_pos rfl] at hadded
            refine ⟨hs.of_added hadded, ?_⟩
            rw [Call.adds, hadds, hadded.workers, List.length_append]
            rfl
  | set op =>
      obtain ⟨s', hrun, hsame⟩ := op.exists_run hs
      exact ⟨s', hrun, hs.of_sameShape hsame, congrArg _ hsame.workers⟩
  | accept task =>
      obtain ⟨s', hrun, hs', hworkers⟩ := exists_acceptSocket hs task
      exact ⟨s', hrun, hs', congrArg _ hworkers⟩

/-- Calls that do not run out of memory all return, and their workers form a ring. -/
theorem exists_runCalls {calls : List Call} (hmemory : ∀ call ∈ calls, call.HasMemory)
    (hs : Linked http s) :
    ∃ s', runCalls http calls s = .ok s' ∧ Linked http s' ∧
      s'.workers.length = s.workers.length + calls.countP Call.adds := by
  induction calls generalizing s with
  | nil => exact ⟨s, rfl, hs, rfl⟩
  | cons call calls ih =>
      obtain ⟨hcall, hcalls⟩ := List.forall_mem_cons.mp hmemory
      obtain ⟨s₁, hrun, hs₁, hlength⟩ := call.exists_run hcall hs
      obtain ⟨s', hruns, hs', hlength'⟩ := ih hcalls hs₁
      refine ⟨s', ?_, hs', ?_⟩
      · rw [runCalls, List.foldlM_cons, hrun]
        exact hruns
      · rw [hlength', hlength, List.countP_cons, Nat.add_assoc, Nat.add_comm (calls.countP _)]

theorem heap_start : start.heap 1 = some { timeout := -1 } := rfl

theorem heap_start_of_ne {p : Ptr} (hp : p ≠ 1) : start.heap p = none :=
  Function.update_of_ne hp _ _

theorem linked_start : Linked 1 start where
  null := heap_start_of_ne Nat.zero_ne_one
  fresh _ hp := heap_start_of_ne (Nat.ne_of_gt hp)
  main := ⟨_, heap_start, rfl, fun _ => rfl, fun hne => absurd rfl hne⟩
  main_notMem := List.not_mem_nil
  ring := isRing_nil
  worker := nofun
  own_pipe := nofun

/-! ## Exactly once -/

/-- A function called on the server is called once on each of the workers. -/
def ReachesOnce (f : State → Except Fault State) (s : State) : Prop :=
  ∃ s', f s = .ok s' ∧ ∀ w ∈ s.workers, s'.calls.count w = s.calls.count w + 1

/-- A call of `evhttp_set_cb` adds one entry to the list of each of the workers. -/
def AddsEntry (http : Ptr) (new : EvhttpCb) (s : State) : Prop :=
  ∃ s', evhttpSetCb http new.what new.cb new.cbarg s = .ok s' ∧ ∀ w ∈ s.workers,
    (s'.heap w).map Evhttp.callbacks = (s.heap w).map (·.callbacks ++ [new])

/-- A call of `evhttp_free` returns, with all the workers freed. -/
def FreesAll (http : Ptr) (s : State) : Prop :=
  ∃ s', evhttpFree http s = .ok s' ∧ ∀ w ∈ s.workers, s'.heap w = none

/-- The server has an entry of the URI. Otherwise `evhttp_del_cb` returns before
its loop. -/
def Registers (http : Ptr) (uri : Bytes) (s : State) : Prop :=
  ∃ h, s.heap http = some h ∧ h.callbacks.any (·.what == uri) = true

theorem two_le_length_iff (hworkers : s.workers ≠ []) :
    2 ≤ s.workers.length ↔ s.workers.length ≠ 1 := by
  have hpos := List.length_pos_iff.mpr hworkers
  omega

theorem count_visited {ws : List Ptr} (hnodup : ws.Nodup) {w : Ptr} (hw : w ∈ ws) :
    (visited ws).count w = if ws.length = 1 then 2 else 1 := by
  cases ws with
  | nil => cases hw
  | cons w' ws =>
      cases ws with
      | nil =>
          rw [List.mem_singleton.mp hw]
          simp [visited]
      | cons w'' ws =>
          rw [if_neg (by simp)]
          exact List.count_eq_one_of_mem hnodup hw

theorem heap_foldl_visited (f : Option Evhttp → Option Evhttp) {ws : List Ptr} (hnodup : ws.Nodup)
    {w : Ptr} (hw : w ∈ ws) (s : State) :
    ((visited ws).foldl (State.visit f) s).heap w =
      if ws.length = 1 then f (f (s.heap w)) else f (s.heap w) := by
  cases ws with
  | nil => cases hw
  | cons w' ws =>
      cases ws with
      | nil =>
          rw [List.mem_singleton.mp hw]
          simp [visited, State.visit]
      | cons w'' ws =>
          rw [if_neg (by simp), visited, heap_foldl_visit f hnodup, if_pos hw]
          simp

/-- What a function that does not return before its loop does to each of the
workers, and how often it is called on it. -/
theorem exists_run_workers (hs : Linked http s) {op : Op} (hh : s.heap http = some h)
    (hown : op.own h ≠ none) :
    ∃ s', op.run http s = .ok s' ∧ ∀ w ∈ s.workers,
      s'.calls.count w = s.calls.count w + (if s.workers.length = 1 then 2 else 1) ∧
      s'.heap w = if s.workers.length = 1 then op.effect (op.effect (s.heap w))
        else op.effect (s.heap w) := by
  have hrun := run_eq op hs hh
  rw [if_neg hown] at hrun
  refine ⟨_, hrun, fun w hw => ⟨?_, ?_⟩⟩
  · have hcalls : (s.visit op.effect http).calls = s.calls ++ [http] := rfl
    have hne := (hs.ne_main hw).symm
    rw [calls_foldl_visit, hcalls, List.count_append, List.count_append, List.count_singleton,
      count_visited hs.ring.nodup hw]
    simp [hne]
  · rw [heap_foldl_visited _ hs.ring.nodup hw, State.heap_visit_of_ne (hs.ne_main hw)]

theorem reachesOnce_run_iff (hs : Linked http s) (hworkers : s.workers ≠ []) {op : Op}
    (hh : s.heap http = some h) (hown : op.own h ≠ none) :
    ReachesOnce (op.run http) s ↔ 2 ≤ s.workers.length := by
  obtain ⟨s', hrun, hworker⟩ := exists_run_workers hs hh hown
  rw [two_le_length_iff hworkers]
  constructor
  · rintro ⟨s'', hs'', honce⟩ hone
    obtain ⟨w, hw⟩ := List.exists_mem_of_ne_nil _ hworkers
    obtain rfl := Except.ok.inj (hrun.symm.trans hs'')
    have hcount := (hworker w hw).1.symm.trans (honce w hw)
    rw [if_pos hone] at hcount
    exact absurd (Nat.add_left_cancel hcount) (by decide)
  · intro hone
    refine ⟨s', hrun, fun w hw => ?_⟩
    rw [(hworker w hw).1, if_neg hone]

theorem reachesOnce_delCb_iff (hs : Linked http s) (hworkers : s.workers ≠ []) {uri : Bytes}
    (hregisters : Registers http uri s) :
    ReachesOnce (fun s => Prod.snd <$> evhttpDelCb http uri s) s ↔ 2 ≤ s.workers.length := by
  obtain ⟨h, hh, hany⟩ := hregisters
  have hown : (Op.delCb uri).own h ≠ none := by
    rw [Op.own, if_pos hany]
    exact Option.some_ne_none _
  have hdel : Prod.snd <$> evhttpDelCb http uri s = (Op.delCb uri).run http s := by
    rw [evhttpDelCb, State.read_eq_ok hs.null hh]
    show Prod.snd <$> ((Op.delCb uri).run http s >>= fun s' => .ok (_, s')) = _
    cases (Op.delCb uri).run http s with
    | error fault => rfl
    | ok s' => rfl
  rw [← reachesOnce_run_iff hs hworkers hh hown, ReachesOnce, ReachesOnce, hdel]

theorem addsEntry_iff (hs : Linked http s) (hworkers : s.workers ≠ []) (new : EvhttpCb) :
    AddsEntry http new s ↔ 2 ≤ s.workers.length := by
  obtain ⟨h, hh, -⟩ := hs.main
  let op := Op.setCb new.what new.cb new.cbarg
  have hown : op.own h ≠ none := Option.some_ne_none _
  obtain ⟨s', hrun, hworker⟩ := exists_run_workers hs hh hown
  have heffect : ∀ o : Option Evhttp,
      (op.effect o).map Evhttp.callbacks = o.map (·.callbacks ++ [new]) := by
    intro o
    cases o <;> rfl
  rw [two_le_length_iff hworkers]
  constructor
  · rintro ⟨s'', hs'', honce⟩ hone
    obtain ⟨w, hw⟩ := List.exists_mem_of_ne_nil _ hworkers
    obtain ⟨e, he, -⟩ := hs.worker w hw
    obtain rfl := Except.ok.inj (hrun.symm.trans hs'')
    have hentries := honce w hw
    rw [(hworker w hw).2, if_pos hone, he] at hentries
    have hlength := congrArg (Option.map List.length) hentries
    simp [op, Op.effect, Op.apply, Op.own] at hlength
  · intro hone
    refine ⟨s', hrun, fun w hw => ?_⟩
    rw [(hworker w hw).2, if_neg hone, heffect]

theorem reachesOnce_free_iff (hs : Linked http s) (hworkers : s.workers ≠ []) :
    ReachesOnce (evhttpFree http) s ↔ 2 ≤ s.workers.length := by
  rw [two_le_length_iff hworkers]
  constructor
  · rintro ⟨s', hs', -⟩ hone
    rw [evhttpFree_one hs hone] at hs'
    cases hs'
  · intro hlength
    obtain ⟨s', hs', hcalls, -⟩ := exists_evhttpFree hs hlength
    refine ⟨s', hs', fun w hw => ?_⟩
    rw [hcalls, List.count_append, List.count_cons_of_ne (hs.ne_main hw).symm,
      List.count_eq_one_of_mem hs.ring.nodup hw]

theorem freesAll_iff (hs : Linked http s) (hworkers : s.workers ≠ []) :
    FreesAll http s ↔ 2 ≤ s.workers.length := by
  rw [two_le_length_iff hworkers]
  constructor
  · rintro ⟨s', hs', -⟩ hone
    rw [evhttpFree_one hs hone] at hs'
    cases hs'
  · intro hlength
    obtain ⟨s', hs', -, hheap⟩ := exists_evhttpFree hs hlength
    refine ⟨s', hs', fun w hw => ?_⟩
    rw [hheap w, if_pos (Or.inr hw)]

/-- The functions that set something on the server and on its workers, and
`evhttp_free`, reach each worker once if and only if there are at least two. -/
theorem broadcasts_once_iff {calls : List Call} (hmemory : ∀ call ∈ calls, call.HasMemory)
    (hadds : 0 < calls.countP Call.adds) :
    ∃ s, runCalls 1 calls start = .ok s ∧ s.workers.length = calls.countP Call.adds ∧
      (∀ uri cb cbarg,
        ReachesOnce (evhttpSetCb 1 uri cb cbarg) s ↔ 2 ≤ calls.countP Call.adds) ∧
      (∀ new, AddsEntry 1 new s ↔ 2 ≤ calls.countP Call.adds) ∧
      (∀ uri, Registers 1 uri s →
        (ReachesOnce (fun s => Prod.snd <$> evhttpDelCb 1 uri s) s ↔
          2 ≤ calls.countP Call.adds)) ∧
      (∀ cb cbarg, ReachesOnce (evhttpSetGencb 1 cb cbarg) s ↔ 2 ≤ calls.countP Call.adds) ∧
      (∀ timeoutInSecs,
        ReachesOnce (evhttpSetTimeout 1 timeoutInSecs) s ↔ 2 ≤ calls.countP Call.adds) ∧
      (ReachesOnce (evhttpFree 1) s ↔ 2 ≤ calls.countP Call.adds) ∧
      (FreesAll 1 s ↔ 2 ≤ calls.countP Call.adds) := by
  obtain ⟨s, hrun, hs, hlength⟩ := exists_runCalls hmemory linked_start
  have hcount : s.workers.length = calls.countP Call.adds := by
    rw [hlength]
    exact Nat.zero_add _
  have hworkers : s.workers ≠ [] := List.length_pos_iff.mp (hcount ▸ hadds)
  obtain ⟨h, hh, -⟩ := hs.main
  rw [← hcount]
  exact ⟨s, hrun, rfl,
    fun _ _ _ => reachesOnce_run_iff hs hworkers hh (Option.some_ne_none _),
    addsEntry_iff hs hworkers,
    fun _ hregisters => reachesOnce_delCb_iff hs hworkers hregisters,
    fun _ _ => reachesOnce_run_iff hs hworkers hh (Option.some_ne_none _),
    fun _ => reachesOnce_run_iff hs hworkers hh (Option.some_ne_none _),
    reachesOnce_free_iff hs hworkers, freesAll_iff hs hworkers⟩

/-- A worker whose pipe fails, and two others. -/
theorem broadcasts_once_iff_two :
    ∃ s, runCalls 1 [.addWorker ⟨true, true, true⟩, .addWorker ⟨true, true, false⟩,
        .addWorker ⟨true, true, true⟩] start = .ok s ∧
      s.workers.length = 2 ∧ (∀ new, AddsEntry 1 new s) ∧ ReachesOnce (evhttpFree 1) s := by
  obtain ⟨s, hrun, hlength, -, hentry, -, -, -, hfree, -⟩ :=
    @broadcasts_once_iff [.addWorker ⟨true, true, true⟩, .addWorker ⟨true, true, false⟩,
      .addWorker ⟨true, true, true⟩] (by simp [Call.HasMemory]) (by decide)
  exact ⟨s, hrun, hlength, fun new => (hentry new).mpr (by decide), hfree.mpr (by decide)⟩

/-- One worker: a call of `evhttp_set_cb` adds two entries to its list, and
`evhttp_free` reads it after freeing it. -/
theorem one_worker_called_twice :
    ∃ s s', runCalls 1 [.addWorker ⟨true, true, true⟩] start = .ok s ∧ s.workers = [2] ∧
      evhttpSetCb 1 [47] 7 0 s = .ok s' ∧
      (s'.heap 2).map Evhttp.callbacks = some [⟨[47], 7, 0⟩, ⟨[47], 7, 0⟩] ∧
      s'.calls.count 2 = s.calls.count 2 + 2 ∧
      ¬ ReachesOnce (evhttpSetCb 1 [47] 7 0) s ∧
      evhttpFree 1 s = .error .useAfterFree := by
  refine ⟨_, _, rfl, rfl, rfl, rfl, rfl, ?_, rfl⟩
  rintro ⟨s', hs', honce⟩
  obtain rfl := Except.ok.inj hs'
  exact absurd (honce 2 List.mem_cons_self) (by decide)

end SearchTools.Libevent
