/-
# Workers answer like the server

What `evhttp_handle_request` makes of a request, and why a worker answers it like
the server it was added to. The lists of callbacks need not be equal: a single
worker is visited twice by each broadcast, so each entry stands in its list twice.
-/

import SearchTools.Libevent.Workers
import SearchTools.Library.Copies

namespace SearchTools.Libevent

open SearchTools.Library

/-! ## Requests -/

/-- `strncmp(s, t, n) == 0`. -/
def strncmpEq (s t : Bytes) (n : ℕ) : Bool := s.take n == t.take n

/-- The test of `evhttp_dispatch_callback` for an entry, with the offset of the
first `?` of the URI. -/
def EvhttpCb.serves (uri : Bytes) (p : Option ℕ) (cb : EvhttpCb) : Bool :=
  match p with
  | none => cb.what == uri
  | some offset => strncmpEq cb.what uri offset && cb.what.getD offset 0 == 0

/-- `evhttp_dispatch_callback`. -/
def evhttpDispatchCallback (callbacks : List EvhttpCb) (uri : Bytes) : Option EvhttpCb :=
  callbacks.find? (EvhttpCb.serves uri (uri.findIdx? (· == 63)))

/-- What becomes of a request. -/
inductive Answer
  | badRequest
  | call (cb cbarg : Ptr)
  | notFound
  deriving DecidableEq, Repr

/-- `evhttp_handle_request`. -/
def evhttpHandleRequest (http : Evhttp) : Option Bytes → Answer
  | none => .badRequest
  | some uri =>
      match evhttpDispatchCallback http.callbacks uri with
      | some cb => .call cb.cb cb.cbarg
      | none => if http.gencb ≠ 0 then .call http.gencb http.gencbarg else .notFound

/-- Two objects select the same callback and argument for every URI, and have the
same generic callback. -/
structure SameAnswers (h e : Evhttp) : Prop where
  dispatch : ∀ uri, evhttpDispatchCallback e.callbacks uri = evhttpDispatchCallback h.callbacks uri
  gencb : e.gencb = h.gencb
  gencbarg : e.gencbarg = h.gencbarg

theorem SameAnswers.handleRequest {h e : Evhttp} (hsame : SameAnswers h e) (uri : Option Bytes) :
    evhttpHandleRequest e uri = evhttpHandleRequest h uri := by
  cases uri with
  | none => rfl
  | some uri =>
      rw [evhttpHandleRequest, evhttpHandleRequest, hsame.dispatch, hsame.gencb, hsame.gencbarg]

/-! ## Following the server -/

/-- The settings of `h`, with every callback `k` times. -/
structure Follows (k : ℕ) (h e : Evhttp) : Prop where
  callbacks : e.callbacks = copies k h.callbacks
  gencb : e.gencb = h.gencb
  gencbarg : e.gencbarg = h.gencbarg

theorem Follows.sameAnswers {k : ℕ} {h e : Evhttp} (hk : 0 < k) (hfollows : Follows k h e) :
    SameAnswers h e where
  dispatch uri := by
    rw [evhttpDispatchCallback, hfollows.callbacks, find?_copies hk]
    rfl
  gencb := hfollows.gencb
  gencbarg := hfollows.gencbarg

theorem Op.iterate_setCb (uri : Bytes) (cb cbarg : Ptr) (k : ℕ) (e : Evhttp) :
    ((Op.setCb uri cb cbarg).apply)^[k] e =
      { e with callbacks := e.callbacks ++ List.replicate k ⟨uri, cb, cbarg⟩ } := by
  induction k generalizing e with
  | zero => rw [List.replicate_zero, List.append_nil]; rfl
  | succ k ih =>
      rw [Function.iterate_succ_apply, ih, List.replicate_succ, List.append_cons]
      rfl

theorem Op.apply_delCb (uri : Bytes) (e : Evhttp) :
    (Op.delCb uri).apply e = { e with callbacks := e.callbacks.eraseP (·.what == uri) } := by
  rw [Op.apply, Op.own]
  by_cases hany : e.callbacks.any (·.what == uri) = true
  · rw [if_pos hany]
    rfl
  · have hnone : ∀ cb ∈ e.callbacks, ¬ (cb.what == uri) = true := by
      intro cb hcb hwhat
      exact hany (List.any_eq_true.mpr ⟨cb, hcb, hwhat⟩)
    rw [if_neg hany, List.eraseP_of_forall_not hnone]
    rfl

theorem Op.iterate_delCb (uri : Bytes) (k : ℕ) (e : Evhttp) :
    ((Op.delCb uri).apply)^[k] e =
      { e with callbacks := (List.eraseP (·.what == uri))^[k] e.callbacks } := by
  induction k generalizing e with
  | zero => rfl
  | succ k ih => rw [Function.iterate_succ_apply, ih, Op.apply_delCb]; rfl

theorem Op.iterate_setGencb (cb cbarg : Ptr) (k : ℕ) (e : Evhttp) :
    ((Op.setGencb cb cbarg).apply)^[k + 1] e = { e with gencb := cb, gencbarg := cbarg } := by
  induction k with
  | zero => rfl
  | succ k ih => rw [Function.iterate_succ_apply', ih]; rfl

theorem Op.iterate_setTimeout (timeoutInSecs : ℤ) (k : ℕ) (e : Evhttp) :
    ∃ timeout, ((Op.setTimeout timeoutInSecs).apply)^[k] e = { e with timeout := timeout } := by
  induction k generalizing e with
  | zero => exact ⟨e.timeout, rfl⟩
  | succ k ih =>
      rcases ih ((Op.setTimeout timeoutInSecs).apply e) with ⟨timeout, htimeout⟩
      exact ⟨timeout, htimeout⟩

/-- A function called once on the server and `k` times on the worker. -/
theorem Follows.apply {k : ℕ} {h e : Evhttp} (hk : 0 < k) (hfollows : Follows k h e) (op : Op) :
    Follows k (op.apply h) (op.apply^[k] e) := by
  cases op with
  | setCb uri cb cbarg =>
      rw [Op.iterate_setCb]
      exact {
        callbacks := by
          rw [hfollows.callbacks]
          exact (copies_concat k h.callbacks ⟨uri, cb, cbarg⟩).symm
        gencb := hfollows.gencb
        gencbarg := hfollows.gencbarg }
  | delCb uri =>
      rw [Op.iterate_delCb, Op.apply_delCb]
      exact {
        callbacks := by
          rw [hfollows.callbacks]
          exact iterate_eraseP_copies k _ _
        gencb := hfollows.gencb
        gencbarg := hfollows.gencbarg }
  | setGencb cb cbarg =>
      rcases Nat.exists_eq_succ_of_ne_zero (Nat.ne_of_gt hk) with ⟨j, hj⟩
      rw [hj, Op.iterate_setGencb, ← hj]
      exact ⟨hfollows.callbacks, rfl, rfl⟩
  | setTimeout timeoutInSecs =>
      rcases Op.iterate_setTimeout timeoutInSecs k e with ⟨timeout, htimeout⟩
      rw [htimeout]
      exact ⟨hfollows.callbacks, hfollows.gencb, hfollows.gencbarg⟩

/-! ## Over a run -/

variable {http : Ptr} {h : Evhttp} {s s' : State}

/-- How often a broadcast visits each of the workers. -/
def visits (ws : List Ptr) : ℕ := if ws.length = 1 then 2 else 1

theorem visits_pos (ws : List Ptr) : 0 < visits ws := by
  rw [visits]
  split
  · exact Nat.two_pos
  · exact Nat.one_pos

/-- Every worker follows the server. -/
def Mirrored (http : Ptr) (s : State) : Prop :=
  ∃ h, s.heap http = some h ∧
    ∀ w ∈ s.workers, ∃ e, s.heap w = some e ∧ Follows (visits s.workers) h e

theorem mem_visited {ws : List Ptr} {w : Ptr} : w ∈ visited ws ↔ w ∈ ws := by
  cases ws with
  | nil => exact Iff.rfl
  | cons w' ws =>
      cases ws with
      | nil => simp [visited]
      | cons w'' ws => exact Iff.rfl

theorem heap_foldl_visit_of_notMem (f : Option Evhttp → Option Evhttp) {ws : List Ptr} {p : Ptr}
    (hp : p ∉ ws) (s : State) : (ws.foldl (State.visit f) s).heap p = s.heap p := by
  induction ws generalizing s with
  | nil => rfl
  | cons w ws ih =>
      rw [List.foldl_cons, ih (fun hmem => hp (List.mem_cons_of_mem _ hmem))]
      apply State.heap_visit_of_ne
      intro heq
      exact hp (heq ▸ List.mem_cons_self)

/-- One call of a function that sets something. -/
theorem Mirrored.run (hs : Linked http s) (hmirrored : Mirrored http s) (op : Op) :
    ∃ s', op.run http s = .ok s' ∧ SameShape s s' ∧ Mirrored http s' := by
  rcases hmirrored with ⟨h, hh, hworkers⟩
  rcases op.exists_run hs with ⟨s', hrun, hsame⟩
  have heq := Except.ok.inj (hrun.symm.trans (run_eq op hs hh))
  refine ⟨s', hrun, hsame, op.apply h, ?_, ?_⟩
  · have hvisit : (s.visit op.effect http).heap http = some (op.apply h) := by
      simp [State.visit, Op.effect, hh]
    rw [heq]
    split
    · exact hvisit
    · rw [heap_foldl_visit_of_notMem _ (fun hmem => hs.main_notMem (mem_visited.mp hmem))]
      exact hvisit
  · intro w hw
    rw [hsame.workers] at hw ⊢
    rcases hworkers w hw with ⟨e, he, hfollows⟩
    have hvisit : (s.visit op.effect http).heap w = s.heap w :=
      State.heap_visit_of_ne (hs.ne_main hw)
    by_cases hown : op.own h = none
    · -- `evhttp_del_cb` returns before its loop: neither list changes.
      have happly : op.apply h = h := by rw [Op.apply, hown]; rfl
      rw [if_pos hown] at heq
      rw [heq, hvisit, happly]
      exact ⟨e, he, hfollows⟩
    · rw [if_neg hown] at heq
      refine ⟨op.apply^[visits s.workers] e, ?_, hfollows.apply (visits_pos _) op⟩
      rw [heq, heap_foldl_visited _ hs.ring.nodup hw, hvisit, he, visits]
      split <;> rfl

/-- Any sequence of such calls. -/
theorem Mirrored.runCalls (hs : Linked http s) (hmirrored : Mirrored http s) (ops : List Op) :
    ∃ s', Libevent.runCalls http (ops.map .set) s = .ok s' ∧ s'.workers = s.workers ∧
      Mirrored http s' := by
  induction ops generalizing s with
  | nil => exact ⟨s, rfl, rfl, hmirrored⟩
  | cons op ops ih =>
      rcases hmirrored.run hs op with ⟨s₁, hrun, hsame, hmirrored₁⟩
      rcases ih (hs.of_sameShape hsame) hmirrored₁ with ⟨s', hruns, hworkers, hmirrored'⟩
      refine ⟨s', ?_, hworkers.trans hsame.workers, hmirrored'⟩
      rw [List.map_cons, Libevent.runCalls, List.foldlM_cons, Call.run, hrun]
      exact hruns

/-! ## From a new server on -/

/-- No callback is set. -/
structure Evhttp.Unset (e : Evhttp) : Prop where
  callbacks : e.callbacks = []
  gencb : e.gencb = 0
  gencbarg : e.gencbarg = 0

/-- No callback is set anywhere. -/
def Unset (s : State) : Prop := ∀ p e, s.heap p = some e → e.Unset

theorem Unset.mirrored (hs : Linked http s) (hunset : Unset s) : Mirrored http s := by
  rcases hs.main with ⟨h, hh, -⟩
  have hmain := hunset http h hh
  refine ⟨h, hh, ?_⟩
  intro w hw
  rcases hs.worker w hw with ⟨e, he, -⟩
  have hworker := hunset w e he
  refine ⟨e, he, ?_, ?_, ?_⟩
  · rw [hworker.callbacks, hmain.callbacks]
    rfl
  · rw [hworker.gencb, hmain.gencb]
  · rw [hworker.gencbarg, hmain.gencbarg]

theorem unset_start : Unset start := by
  intro p e he
  by_cases hp : p = 1
  · rw [hp, heap_start] at he
    obtain rfl := Option.some.inj he
    exact ⟨rfl, rfl, rfl⟩
  · rw [heap_start_of_ne hp] at he
    cases he

/-- A new worker has nothing set, and the links do not matter. -/
theorem Unset.of_added (hs : Linked http s) (hunset : Unset s) (hadded : Added http s s') :
    Unset s' := by
  intro p e' he'
  rcases hs.main with ⟨h, hh, -⟩
  by_cases hbrk : p = s.brk
  · rw [hbrk, hadded.new] at he'
    obtain rfl := Option.some.inj he'
    exact ⟨rfl, rfl, rfl⟩
  · cases he : s.heap p with
    | none =>
        rw [hadded.eq_none hs hbrk he] at he'
        cases he'
    | some e =>
        have hold := hunset p e he
        by_cases hmain : p = http
        · subst hmain
          obtain rfl := Option.some.inj ((hadded.main e he).symm.trans he')
          split
          · exact ⟨hold.callbacks, hold.gencb, hold.gencbarg⟩
          · exact hold
        · by_cases hlast : p ∈ s.workers.getLast?
          · obtain rfl := Option.some.inj ((hadded.last p hlast e he).symm.trans he')
            exact ⟨hold.callbacks, hold.gencb, hold.gencbarg⟩
          · rw [hadded.frame p hbrk hmain hlast] at he'
            exact hunset p e' he'

/-- Any number of calls of `evhttp_add_worker`. -/
theorem Unset.runCalls (hs : Linked http s) (hunset : Unset s) {supplies : List Supply}
    (hmemory : ∀ supply ∈ supplies, supply.memory = true) :
    ∃ s', Libevent.runCalls http (supplies.map .addWorker) s = .ok s' ∧ Linked http s' ∧
      s'.workers.length = s.workers.length + supplies.countP Supply.adds ∧ Unset s' := by
  induction supplies generalizing s with
  | nil => exact ⟨s, rfl, hs, rfl, hunset⟩
  | cons supply supplies ih =>
      rcases List.forall_mem_cons.mp hmemory with ⟨hsupply, hsupplies⟩
      rcases evhttpAddWorker_spec hs hsupply with ⟨s₁, hadd, heffect⟩
      have hcall : (Call.addWorker supply).run http s = .ok s₁ := by
        rw [Call.run, hadd]
        rfl
      have hnext : Linked http s₁ ∧ Unset s₁ ∧
          s₁.workers.length = s.workers.length + if supply.adds then 1 else 0 := by
        cases hadds : supply.adds with
        | true =>
            rw [hadds, if_pos rfl] at heffect
            refine ⟨hs.of_added heffect, hunset.of_added hs heffect, ?_⟩
            rw [heffect.workers, List.length_append]
            rfl
        | false =>
            rw [hadds, if_neg Bool.false_ne_true] at heffect
            refine ⟨hs.of_failed heffect, ?_, congrArg _ heffect.workers⟩
            rw [Unset, heffect.heap]
            exact hunset
      rcases ih hnext.1 hnext.2.1 hsupplies with ⟨s', hruns, hs', hlength, hunset'⟩
      refine ⟨s', ?_, hs', ?_, hunset'⟩
      · rw [List.map_cons, Libevent.runCalls, List.foldlM_cons, hcall]
        exact hruns
      · rw [hlength, hnext.2.2, List.countP_cons, Nat.add_assoc,
          Nat.add_comm (supplies.countP Supply.adds)]

/-- Workers are added to a new server, and then callbacks are set and deleted on the
server, in any order. Every worker selects for every request what the server selects. -/
theorem workers_sameAnswers {supplies : List Supply}
    (hmemory : ∀ supply ∈ supplies, supply.memory = true) (ops : List Op) :
    ∃ s h, runCalls 1 (supplies.map .addWorker ++ ops.map .set) start = .ok s ∧
      s.workers.length = supplies.countP Supply.adds ∧ s.heap 1 = some h ∧
      ∀ w ∈ s.workers, ∃ e, s.heap w = some e ∧ SameAnswers h e ∧
        ∀ uri, evhttpHandleRequest e uri = evhttpHandleRequest h uri := by
  rcases unset_start.runCalls linked_start hmemory with ⟨s₁, hadds, hs₁, hlength, hunset⟩
  rcases (hunset.mirrored hs₁).runCalls hs₁ ops with ⟨s, hops, hworkers, h, hh, hfollows⟩
  refine ⟨s, h, ?_, ?_, hh, ?_⟩
  · rw [runCalls, List.foldlM_append]
    show (runCalls 1 (supplies.map .addWorker) start >>= fun s => runCalls 1 (ops.map .set) s) = _
    rw [hadds]
    exact hops
  · rw [hworkers, hlength]
    exact Nat.zero_add _
  · intro w hw
    rcases hfollows w hw with ⟨e, he, hfollows⟩
    have hsame := hfollows.sameAnswers (visits_pos _)
    exact ⟨e, he, hsame, hsame.handleRequest⟩

/-- One worker, after one of two entries of a URI was deleted. -/
theorem workers_sameAnswers_one :
    ∃ s h, runCalls 1 [.addWorker ⟨true, true, true⟩, .set (.setCb [47] 7 0),
        .set (.setCb [47] 8 1), .set (.delCb [47]), .set (.setGencb 9 2)] start = .ok s ∧
      s.workers = [2] ∧ s.heap 1 = some h ∧
      ∃ e, s.heap 2 = some e ∧ e.callbacks = [⟨[47], 8, 1⟩, ⟨[47], 8, 1⟩] ∧
        evhttpHandleRequest h (some [47, 63, 97]) = .call 8 1 ∧ SameAnswers h e := by
  rcases @workers_sameAnswers [⟨true, true, true⟩] (by simp) [.setCb [47] 7 0, .setCb [47] 8 1,
    .delCb [47], .setGencb 9 2] with ⟨s, h, hrun, -, hh, hworkers⟩
  obtain rfl := Except.ok.inj hrun
  obtain rfl := Option.some.inj hh
  rcases hworkers 2 List.mem_cons_self with ⟨e, he, hsame, -⟩
  obtain rfl := Option.some.inj he
  exact ⟨_, _, rfl, rfl, rfl, _, rfl, rfl, by decide, hsame⟩

end SearchTools.Libevent
