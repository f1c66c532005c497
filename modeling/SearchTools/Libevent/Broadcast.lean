/-
# Broadcasts to the workers

The ring of the workers, and what the loops over it do: with two workers or more
they call a function on each of them once, in the order of addition; a single
worker is called twice.
-/

import Mathlib.Data.List.Perm.Subperm
import SearchTools.Libevent.Evhttp
import SearchTools.Library.Ring

namespace SearchTools.Libevent

open SearchTools.Library

/-! ## Memory -/

namespace State

/-- Where an object links to. -/
def link (s : State) (p : Ptr) : Option Ptr := (s.heap p).map Evhttp.next

/-- An object is not at an address without one. -/
theorem ne_of_heap {s : State} {p q : Ptr} {e : Evhttp} (hp : s.heap p = some e)
    (hq : s.heap q = none) : p ≠ q := by
  intro heq
  rw [heq, hq] at hp
  cases hp

theorem read_eq_ok {s : State} {p : Ptr} {e : Evhttp} (hnull : s.heap 0 = none)
    (hp : s.heap p = some e) : s.read p = .ok e := by
  rw [read, if_neg (ne_of_heap hp hnull), hp]

/-- Reading a linked object finds its link. -/
theorem exists_read {s : State} {p q : Ptr} (hnull : s.heap 0 = none) (hp : s.link p = some q) :
    ∃ c, s.read p = .ok c ∧ c.next = q := by
  obtain ⟨c, hc, hnext⟩ := Option.map_eq_some_iff.mp hp
  exact ⟨c, read_eq_ok hnull hc, hnext⟩

theorem modify_eq_ok {s : State} {p : Ptr} {e : Evhttp} (f : Evhttp → Evhttp)
    (hnull : s.heap 0 = none) (hp : s.heap p = some e) : s.modify p f = .ok (s.write p (f e)) := by
  rw [modify, read_eq_ok hnull hp]
  rfl

theorem free_eq_ok {s : State} {p : Ptr} {e : Evhttp} (hnull : s.heap 0 = none)
    (hp : s.heap p = some e) : s.free p = .ok { s with heap := Function.update s.heap p none } := by
  rw [free, read_eq_ok hnull hp]
  rfl

theorem heap_write_of_ne {s : State} {p q : Ptr} {e : Evhttp} (h : q ≠ p) :
    (s.write p e).heap q = s.heap q := Function.update_of_ne h _ _

theorem heap_write_self (s : State) (p : Ptr) (e : Evhttp) : (s.write p e).heap p = some e :=
  Function.update_self _ _ _

end State

/-- The part of an object that the settings leave alone. -/
def Evhttp.shape (e : Evhttp) : Ptr × Ptr × ℕ × ℕ := (e.next, e.cur, e.wakeup, e.rcv)

/-- The same objects, linked in the same way. -/
structure SameShape (s s' : State) : Prop where
  heap : ∀ p, (s'.heap p).map Evhttp.shape = (s.heap p).map Evhttp.shape
  brk : s'.brk = s.brk
  npipes : s'.npipes = s.npipes
  workers : s'.workers = s.workers

theorem SameShape.refl (s : State) : SameShape s s := ⟨fun _ => rfl, rfl, rfl, rfl⟩

theorem SameShape.trans {s s' s'' : State} (h : SameShape s s') (h' : SameShape s' s'') :
    SameShape s s'' :=
  ⟨fun p => (h'.heap p).trans (h.heap p), h'.brk.trans h.brk, h'.npipes.trans h.npipes,
    h'.workers.trans h.workers⟩

theorem SameShape.exists {s s' : State} (h : SameShape s s') {p : Ptr} {e : Evhttp}
    (hp : s.heap p = some e) : ∃ e', s'.heap p = some e' ∧ e'.shape = e.shape := by
  have heq := h.heap p
  rw [hp] at heq
  exact Option.map_eq_some_iff.mp heq

theorem SameShape.eq_none {s s' : State} (h : SameShape s s') {p : Ptr} (hp : s.heap p = none) :
    s'.heap p = none := by
  have heq := h.heap p
  rw [hp] at heq
  exact Option.map_eq_none_iff.mp heq

theorem SameShape.link {s s' : State} (h : SameShape s s') (p : Ptr) : s'.link p = s.link p := by
  have heq := congrArg (Option.map Prod.fst) (h.heap p)
  simpa [Option.map_map, Function.comp_def, Evhttp.shape, State.link] using heq

/-- The workers added to the server form a ring, and the server points into it. -/
structure Linked (http : Ptr) (s : State) : Prop where
  null : s.heap 0 = none
  fresh : ∀ p, s.brk ≤ p → s.heap p = none
  main : ∃ h, s.heap http = some h ∧ h.next = s.workers.headD 0 ∧
    (s.workers = [] → h.cur = 0) ∧ (s.workers ≠ [] → h.cur ∈ s.workers)
  main_notMem : http ∉ s.workers
  ring : IsRing s.link s.workers
  worker : ∀ w ∈ s.workers, ∃ e, s.heap w = some e ∧ e.cur = 0 ∧ e.wakeup = e.rcv ∧
    e.rcv < s.npipes
  own_pipe : ∀ w ∈ s.workers, ∀ w' ∈ s.workers, ∀ e e', s.heap w = some e → s.heap w' = some e' →
    e.rcv = e'.rcv → w = w'

theorem Linked.of_sameShape {http : Ptr} {s s' : State} (h : Linked http s)
    (hsame : SameShape s s') : Linked http s' where
  null := hsame.eq_none h.null
  fresh p hp := hsame.eq_none (h.fresh p (hsame.brk ▸ hp))
  main := by
    obtain ⟨e, he, hnext, hnone, hsome⟩ := h.main
    obtain ⟨e', he', hshape⟩ := hsame.exists he
    simp only [Evhttp.shape, Prod.mk.injEq] at hshape
    rw [hsame.workers, he']
    exact ⟨e', rfl, hshape.1.trans hnext, fun hnil => hshape.2.1.trans (hnone hnil),
      fun hne => hshape.2.1 ▸ hsome hne⟩
  main_notMem := hsame.workers ▸ h.main_notMem
  ring := by
    rw [hsame.workers]
    exact h.ring.congr fun w _ => hsame.link w
  worker := by
    intro w hw
    rw [hsame.workers] at hw
    obtain ⟨e, he, hcur, hpipe, hlt⟩ := h.worker w hw
    obtain ⟨e', he', hshape⟩ := hsame.exists he
    simp only [Evhttp.shape, Prod.mk.injEq] at hshape
    obtain ⟨-, hcur', hwakeup', hrcv'⟩ := hshape
    refine ⟨e', he', hcur'.trans hcur, ?_, ?_⟩
    · rw [hwakeup', hrcv', hpipe]
    · rw [hrcv', hsame.npipes]
      exact hlt
  own_pipe := by
    intro w hw w' hw' e e' he he' hrcv
    rw [hsame.workers] at hw hw'
    obtain ⟨d, hd, -⟩ := h.worker w hw
    obtain ⟨d', hd', -⟩ := h.worker w' hw'
    obtain ⟨e₁, he₁, hshape⟩ := hsame.exists hd
    obtain ⟨e₂, he₂, hshape'⟩ := hsame.exists hd'
    obtain rfl := Option.some.inj (he₁.symm.trans he)
    obtain rfl := Option.some.inj (he₂.symm.trans he')
    simp only [Evhttp.shape, Prod.mk.injEq] at hshape hshape'
    refine h.own_pipe w hw w' hw' d d' hd hd' ?_
    rw [← hshape.2.2.2, ← hshape'.2.2.2, hrcv]

theorem Linked.next_eq {http : Ptr} {s : State} (hs : Linked http s) {h : Evhttp}
    (hh : s.heap http = some h) : h.next = s.workers.headD 0 := by
  obtain ⟨h', hh', hnext, -⟩ := hs.main
  obtain rfl := Option.some.inj (hh.symm.trans hh')
  exact hnext

theorem Linked.cur_mem {http : Ptr} {s : State} (hs : Linked http s) {h : Evhttp}
    (hh : s.heap http = some h) (hworkers : s.workers ≠ []) : h.cur ∈ s.workers := by
  obtain ⟨h', hh', -, -, hcur⟩ := hs.main
  obtain rfl := Option.some.inj (hh.symm.trans hh')
  exact hcur hworkers

theorem Linked.ne_zero {http : Ptr} {s : State} (hs : Linked http s) {w : Ptr}
    (hw : w ∈ s.workers) : w ≠ 0 := by
  obtain ⟨e, he, -⟩ := hs.worker w hw
  exact State.ne_of_heap he hs.null

theorem Linked.ne_main {http : Ptr} {s : State} (hs : Linked http s) {w : Ptr}
    (hw : w ∈ s.workers) : w ≠ http := fun heq => hs.main_notMem (heq ▸ hw)

/-- The server has a current worker once it has workers. -/
theorem Linked.cur_eq_zero_iff {http : Ptr} {s : State} (hs : Linked http s) {h : Evhttp}
    (hh : s.heap http = some h) : h.cur = 0 ↔ s.workers = [] := by
  constructor
  · intro hcur
    by_contra hworkers
    exact hs.ne_zero (hs.cur_mem hh hworkers) hcur
  · intro hworkers
    obtain ⟨h', hh', -, hcur, -⟩ := hs.main
    obtain rfl := Option.some.inj (hh.symm.trans hh')
    exact hcur hworkers

/-- An object is below the address of the next one. -/
theorem Linked.lt_brk {http : Ptr} {s : State} (hs : Linked http s) {p : Ptr} {e : Evhttp}
    (hp : s.heap p = some e) : p < s.brk := by
  by_contra hbrk
  exact State.ne_of_heap hp (hs.fresh p (Nat.not_lt.mp hbrk)) rfl

theorem Linked.exists_brk {http : Ptr} {s : State} (hs : Linked http s) : ∃ d, s.brk = d + 1 := by
  obtain ⟨h, hh, -⟩ := hs.main
  exact Nat.exists_eq_add_one.mpr (Nat.zero_lt_of_lt (hs.lt_brk hh))

/-- There is fuel enough for a walk around the ring. -/
theorem Linked.length_workers_le {http : Ptr} {s : State} (h : Linked http s) :
    s.workers.length ≤ s.brk := by
  have hsub : s.workers ⊆ List.range s.brk := by
    intro w hw
    obtain ⟨e, he, -⟩ := h.worker w hw
    exact List.mem_range.mpr (h.lt_brk he)
  have hle := (List.subperm_of_subset h.ring.nodup hsub).length_le
  rwa [List.length_range] at hle

/-! ## One object -/

/-- A call that reaches one object only, and what it makes of the object. -/
def State.visit (f : Option Evhttp → Option Evhttp) (s : State) (p : Ptr) : State :=
  { s.enter p with heap := Function.update s.heap p (f (s.heap p)) }

theorem State.heap_visit_of_ne {f : Option Evhttp → Option Evhttp} {s : State} {p q : Ptr}
    (h : q ≠ p) : (s.visit f p).heap q = s.heap q := Function.update_of_ne h _ _

theorem calls_foldl_visit (f : Option Evhttp → Option Evhttp) (ws : List Ptr) (s : State) :
    (ws.foldl (State.visit f) s).calls = s.calls ++ ws := by
  induction ws generalizing s with
  | nil => exact (List.append_nil _).symm
  | cons w ws ih =>
      rw [List.foldl_cons, ih]
      exact List.append_assoc _ _ _

theorem heap_foldl_visit (f : Option Evhttp → Option Evhttp) {ws : List Ptr} (hnodup : ws.Nodup)
    (s : State) (p : Ptr) :
    (ws.foldl (State.visit f) s).heap p = if p ∈ ws then f (s.heap p) else s.heap p := by
  induction ws generalizing s with
  | nil => rfl
  | cons w ws ih =>
      obtain ⟨hw, hnodup⟩ := List.nodup_cons.mp hnodup
      rw [List.foldl_cons, ih hnodup]
      by_cases hp : p = w
      · subst hp
        simp [hw, State.visit]
      · simp [hp, State.visit]

/-- What a function that sets something makes of an object. -/
def Op.apply (op : Op) (e : Evhttp) : Evhttp := (op.own e).getD e

theorem Op.shape_apply (op : Op) (e : Evhttp) : (op.apply e).shape = e.shape := by
  cases op with
  | delCb uri =>
      unfold Op.apply Op.own
      dsimp only
      split <;> rfl
  | _ => rfl

def Op.effect (op : Op) : Option Evhttp → Option Evhttp := Option.map op.apply

theorem sameShape_visit {f : Evhttp → Evhttp} (hf : ∀ e, (f e).shape = e.shape) (s : State)
    (p : Ptr) : SameShape s (s.visit (Option.map f) p) where
  heap q := by
    by_cases hq : q = p
    · subst hq
      simp [State.visit, Option.map_map, Function.comp_def, hf]
    · rw [State.heap_visit_of_ne hq]
  brk := rfl
  npipes := rfl
  workers := rfl

theorem sameShape_foldl_visit {f : Evhttp → Evhttp} (hf : ∀ e, (f e).shape = e.shape)
    (ws : List Ptr) (s : State) : SameShape s (ws.foldl (State.visit (Option.map f)) s) := by
  induction ws generalizing s with
  | nil => exact .refl s
  | cons w ws ih => exact (sameShape_visit hf s w).trans (ih _)

/-- On a worker a function reaches the worker only. -/
theorem within_worker (op : Op) (depth : ℕ) {s : State} (hnull : s.heap 0 = none) {w : Ptr}
    {e : Evhttp} (he : s.heap w = some e) (hcur : e.cur = 0) :
    op.within (depth + 1) w s = .ok (s.visit op.effect w) := by
  have hread : (s.enter w).read w = .ok e := State.read_eq_ok hnull he
  have hshape := op.shape_apply e
  rw [Op.within]
  simp only [hread, bind, Except.bind]
  cases hown : op.own e with
  | none =>
      have heffect : op.effect (s.heap w) = s.heap w := by
        simp [Op.effect, Op.apply, hown, he]
      simp only [State.visit, heffect, Function.update_eq_self]
      rfl
  | some e' =>
      have happly : op.apply e = e' := by simp [Op.apply, hown]
      rw [happly] at hshape
      simp only [Evhttp.shape, Prod.mk.injEq] at hshape
      have hcur' : ¬ e'.cur ≠ 0 := by simp [hshape.2.1, hcur]
      simp only [hcur', if_false, State.visit, Op.effect, he, Option.map_some, happly]
      rfl

/-- What `evhttp_free` makes of an object. -/
def freed : Option Evhttp → Option Evhttp := fun _ => none

/-- On a worker `evhttp_free` frees the worker only. -/
theorem evhttpFreeWithin_worker (depth : ℕ) {s : State} (hnull : s.heap 0 = none) {w : Ptr}
    {e : Evhttp} (he : s.heap w = some e) (hcur : e.cur = 0) :
    evhttpFreeWithin (depth + 1) w s = .ok (s.visit freed w) := by
  have hne : w ≠ 0 := State.ne_of_heap he hnull
  have hnull' : (s.enter w).heap 0 = none := hnull
  have hkept (e : Evhttp) : ((s.enter w).write w e).heap 0 = none :=
    (State.heap_write_of_ne hne.symm).trans hnull
  rw [evhttpFreeWithin]
  simp only [State.modify_eq_ok _ hnull' he, State.read_eq_ok (hkept _) (State.heap_write_self _ _ _),
    State.free_eq_ok (hkept _) (State.heap_write_self _ _ _), hcur, bind, Except.bind, ne_eq,
    not_true_eq_false, if_false]
  simp only [State.write, Function.update_idem]
  rfl

/-! ## The walk around the ring -/

/-- The workers from some worker on, each of them in memory. -/
structure Path (http : Ptr) (h : Evhttp) (path : List Ptr) (s : State) : Prop where
  null : s.heap 0 = none
  main : s.heap http = some h
  main_notMem : http ∉ path
  nodup : path.Nodup
  chain : (path ++ [h.next]).IsChain fun a b => s.link a = some b
  worker : ∀ w ∈ path, ∃ e, s.heap w = some e ∧ e.cur = 0

variable {http : Ptr} {h : Evhttp} {s : State}

theorem Path.ne_zero {path : List Ptr} (hs : Path http h path s) {w : Ptr} (hw : w ∈ path) :
    w ≠ 0 := by
  obtain ⟨e, he, -⟩ := hs.worker w hw
  exact State.ne_of_heap he hs.null

theorem Path.ne_main {path : List Ptr} (hs : Path http h path s) {w : Ptr} (hw : w ∈ path) :
    http ≠ w := fun heq => hs.main_notMem (heq ▸ hw)

theorem Path.read_main {path : List Ptr} (hs : Path http h path s) : s.read http = .ok h :=
  State.read_eq_ok hs.null hs.main

/-- A call on a worker leaves the workers after it as they are. -/
theorem Path.tail (f : Option Evhttp → Option Evhttp) {w : Ptr} {rest : List Ptr}
    (hs : Path http h (w :: rest) s) : Path http h rest (s.visit f w) := by
  obtain ⟨hw, hnodup⟩ := List.nodup_cons.mp hs.nodup
  have hheap : ∀ p ∈ rest, (s.visit f w).heap p = s.heap p := fun p hp =>
    State.heap_visit_of_ne fun heq => hw (heq ▸ hp)
  exact {
    null := (State.heap_visit_of_ne (hs.ne_zero List.mem_cons_self).symm).trans hs.null
    main := (State.heap_visit_of_ne (hs.ne_main List.mem_cons_self)).trans hs.main
    main_notMem := fun hmem => hs.main_notMem (List.mem_cons_of_mem _ hmem)
    nodup := hnodup
    chain := isChain_next_congr hs.chain.tail fun p hp => congrArg _ (hheap p hp)
    worker := fun p hp => hheap p hp ▸ hs.worker p (List.mem_cons_of_mem _ hp) }

/-- A call that keeps the shape of the worker leaves it on the path. -/
theorem Path.again {g : Evhttp → Evhttp} (hg : ∀ e, (g e).shape = e.shape) {w : Ptr}
    {rest : List Ptr} (hs : Path http h (w :: rest) s) :
    Path http h (w :: rest) (s.visit (Option.map g) w) where
  null := (sameShape_visit hg s w).eq_none hs.null
  main := (State.heap_visit_of_ne (hs.ne_main List.mem_cons_self)).trans hs.main
  main_notMem := hs.main_notMem
  nodup := hs.nodup
  chain := hs.chain.imp fun a b hab => ((sameShape_visit hg s w).link a).trans hab
  worker := by
    intro p hp
    obtain ⟨e, he, hcur⟩ := hs.worker p hp
    obtain ⟨e', he', hshape⟩ := (sameShape_visit hg s w).exists he
    simp only [Evhttp.shape, Prod.mk.injEq] at hshape
    exact ⟨e', he', hshape.2.1.trans hcur⟩

theorem Linked.exists_workers (hs : Linked http s) (hh : s.heap http = some h)
    (hworkers : s.workers ≠ []) : ∃ rest, s.workers = h.next :: rest := by
  obtain ⟨w, rest, hws⟩ := List.exists_cons_of_ne_nil hworkers
  have hnext : h.next = w := by rw [hs.next_eq hh, hws, List.headD_cons]
  exact ⟨rest, hnext ▸ hws⟩

/-- The ring is a path from the first worker back to it. -/
theorem Linked.path (hs : Linked http s) (hh : s.heap http = some h) {rest : List Ptr}
    (hws : s.workers = h.next :: rest) : Path http h (h.next :: rest) s where
  null := hs.null
  main := hh
  main_notMem := hws ▸ hs.main_notMem
  nodup := hws ▸ hs.ring.nodup
  chain := by
    have hchain := hs.ring.chain h.next
    rw [hws] at hchain
    exact hchain rfl
  worker := by
    rw [← hws]
    exact fun w hw => (hs.worker w hw).imp fun _ he => ⟨he.1, he.2.1⟩

/-- The body of the loop and its test. -/
theorem workersLoop_step (op : Op) (depth fuel : ℕ) {w w' w'' : Ptr} {rest : List Ptr}
    (hs : Path http h (w :: rest) s) (hlink : s.link w = some w') (hlink' : s.link w' = some w'') :
    workersLoop (op.within (depth + 1)) http (fuel + 1) w s =
      if w'' ≠ h.next then workersLoop (op.within (depth + 1)) http fuel w' (s.visit op.effect w)
      else .ok (w', s.visit op.effect w) := by
  obtain ⟨e, he, hcur⟩ := hs.worker w List.mem_cons_self
  have hsame := sameShape_visit op.shape_apply s w
  obtain ⟨c, hc, rfl⟩ := State.exists_read (hs.tail _).null ((hsame.link w).trans hlink)
  obtain ⟨c', hc', rfl⟩ := State.exists_read (hs.tail _).null ((hsame.link c.next).trans hlink')
  rw [workersLoop]
  simp only [within_worker op depth hs.null he hcur, Op.effect, hc, hc', (hs.tail _).read_main,
    bind, Except.bind]
  rfl

/-- The body of the loop of `evhttp_free` and its test. The link is read before
the worker is freed. -/
theorem freeLoop_step (depth fuel : ℕ) {w w' w'' : Ptr} {rest : List Ptr}
    (hs : Path http h (w :: w' :: rest) s) (hlink' : s.link w' = some w'') :
    freeLoop (evhttpFreeWithin (depth + 1)) http (fuel + 1) w s =
      if w'' ≠ h.next then freeLoop (evhttpFreeWithin (depth + 1)) http fuel w' (s.visit freed w)
      else .ok (w', s.visit freed w) := by
  obtain ⟨e, he, hcur⟩ := hs.worker w List.mem_cons_self
  have hlink : s.link w = some w' := (List.isChain_cons_cons.mp hs.chain).1
  have hne : w' ≠ w := by
    rintro rfl
    exact (List.nodup_cons.mp hs.nodup).1 List.mem_cons_self
  obtain ⟨c, hc, rfl⟩ := State.exists_read hs.null hlink
  have hkept : (s.visit freed w).link c.next = some w'' := by
    rw [State.link, State.heap_visit_of_ne hne]
    exact hlink'
  obtain ⟨c', hc', rfl⟩ := State.exists_read (hs.tail _).null hkept
  rw [freeLoop]
  simp only [evhttpFreeWithin_worker depth hs.null he hcur, hc, hc', (hs.tail _).read_main,
    bind, Except.bind]
  rfl

/-- The link of the second worker of a path. -/
theorem Path.link_of_head {w w' w'' : Ptr} {rest : List Ptr} (hs : Path http h (w :: w' :: rest) s)
    (hw'' : w'' ∈ (rest ++ [h.next]).head?) : s.link w' = some w'' :=
  (List.isChain_cons.mp hs.chain.tail).1 w'' hw''

/-- The objects that a function called on the server is called on in turn. -/
def visited : List Ptr → List Ptr
  | [w] => [w, w]
  | ws => ws

/-- The walk around the ring and the call after it. A single worker is called
twice. -/
theorem workersLoop_eq (op : Op) (depth : ℕ) {rest : List Ptr}
    (hs : Path http h (h.next :: rest) s) {fuel : ℕ} (hfuel : rest.length < fuel) :
    (workersLoop (op.within (depth + 1)) http fuel h.next s >>= fun r =>
      op.within (depth + 1) r.1 r.2) =
        .ok ((visited (h.next :: rest)).foldl (State.visit op.effect) s) := by
  have hcall : ∀ w s, Path http h [w] s →
      op.within (depth + 1) w s = .ok (s.visit op.effect w) := by
    intro w s hs
    obtain ⟨e, he, hcur⟩ := hs.worker w List.mem_cons_self
    exact within_worker op depth hs.null he hcur
  cases rest with
  | nil =>
      have hlink : s.link h.next = some h.next := (List.isChain_cons_cons.mp hs.chain).1
      cases fuel with
      | zero => exact absurd hfuel (Nat.not_lt_zero _)
      | succ fuel =>
          rw [workersLoop_step op depth fuel hs hlink hlink, if_neg (not_not.mpr rfl)]
          exact hcall _ _ (hs.again op.shape_apply)
  | cons w rest =>
      have hnotMem : h.next ∉ rest := fun hmem =>
        (List.nodup_cons.mp hs.nodup).1 (List.mem_cons_of_mem _ hmem)
      refine walk_eq (fun fuel w w' w'' rest s hs hw'' => ?_) hcall
        (fun w rest s hs => hs.tail op.effect) hnotMem (Nat.lt_of_succ_lt hfuel) hs
      exact workersLoop_step op depth fuel hs (List.isChain_cons_cons.mp hs.chain).1
        (hs.link_of_head hw'')

/-- The walk of `evhttp_free`. A single worker is read after it was freed. -/
theorem freeLoop_eq (depth : ℕ) {rest : List Ptr} (hs : Path http h (h.next :: rest) s) {fuel : ℕ}
    (hfuel : rest.length < fuel) :
    (freeLoop (evhttpFreeWithin (depth + 1)) http fuel h.next s >>= fun r =>
      evhttpFreeWithin (depth + 1) r.1 r.2) =
        if rest = [] then .error .useAfterFree
        else .ok ((h.next :: rest).foldl (State.visit freed) s) := by
  have hcall : ∀ w s, Path http h [w] s →
      evhttpFreeWithin (depth + 1) w s = .ok (s.visit freed w) := by
    intro w s hs
    obtain ⟨e, he, hcur⟩ := hs.worker w List.mem_cons_self
    exact evhttpFreeWithin_worker depth hs.null he hcur
  cases rest with
  | nil =>
      obtain ⟨c, hc, hnext⟩ :=
        State.exists_read hs.null (List.isChain_cons_cons.mp hs.chain).1
      have hgone : (s.visit freed h.next).read h.next = .error .useAfterFree := by
        simp [State.read, State.visit, freed, hs.ne_zero List.mem_cons_self]
      cases fuel with
      | zero => exact absurd hfuel (Nat.not_lt_zero _)
      | succ fuel =>
          rw [if_pos rfl, freeLoop]
          simp only [hc, hnext, hcall _ _ hs, hgone, bind, Except.bind]
  | cons w rest =>
      have hnotMem : h.next ∉ rest := fun hmem =>
        (List.nodup_cons.mp hs.nodup).1 (List.mem_cons_of_mem _ hmem)
      rw [if_neg (List.cons_ne_nil w rest)]
      exact walk_eq (fun fuel w w' w'' rest s hs hw'' =>
        freeLoop_step depth fuel hs (hs.link_of_head hw'')) hcall
        (fun w rest s hs => hs.tail freed) hnotMem (Nat.lt_of_succ_lt hfuel) hs

/-- A function called on the server goes to the workers, unless it returns
before. -/
theorem run_eq (op : Op) (hs : Linked http s) (hh : s.heap http = some h) :
    op.run http s = .ok (if op.own h = none then s.visit op.effect http
      else (visited s.workers).foldl (State.visit op.effect) (s.visit op.effect http)) := by
  have hread : (s.enter http).read http = .ok h := State.read_eq_ok hs.null hh
  rw [Op.run, Op.within]
  simp only [hread, bind, Except.bind]
  cases hown : op.own h with
  | none =>
      have heffect : op.effect (s.heap http) = s.heap http := by
        simp [Op.effect, Op.apply, hown, hh]
      simp only [if_true, State.visit, heffect, Function.update_eq_self]
      rfl
  | some h' =>
      have happly : op.apply h = h' := by simp [Op.apply, hown]
      have hvisit : (s.enter http).write http h' = s.visit op.effect http := by
        simp only [State.write, State.visit, Op.effect, hh, Option.map_some, happly]
        rfl
      have hs' := hs.of_sameShape (sameShape_visit op.shape_apply s http)
      have hh' : (s.visit op.effect http).heap http = some h' := by
        simp [State.visit, Op.effect, hh, happly]
      simp only [hvisit, reduceCtorEq, if_false]
      by_cases hworkers : s.workers = []
      · have hcur : ¬ h'.cur ≠ 0 := not_not.mpr ((hs'.cur_eq_zero_iff hh').mpr hworkers)
        rw [if_neg hcur, hworkers]
        rfl
      · have hcur : h'.cur ≠ 0 := (hs'.cur_eq_zero_iff hh').not.mpr hworkers
        obtain ⟨rest, hws⟩ := hs'.exists_workers hh' hworkers
        have hws' : s.workers = h'.next :: rest := hws
        have hlength : rest.length < s.brk := by
          have hle := hs.length_workers_le
          rwa [hws'] at hle
        obtain ⟨d, hd⟩ := hs.exists_brk
        rw [if_pos hcur, hws', hd]
        exact workersLoop_eq op d (hs'.path hh' hws) hlength

/-- A function that sets something leaves the links as they are. -/
theorem Op.exists_run (op : Op) (hs : Linked http s) :
    ∃ s', op.run http s = .ok s' ∧ SameShape s s' := by
  obtain ⟨h, hh, -⟩ := hs.main
  refine ⟨_, run_eq op hs hh, ?_⟩
  have hvisit : SameShape s (s.visit op.effect http) := sameShape_visit op.shape_apply s http
  split
  · exact hvisit
  · exact hvisit.trans (sameShape_foldl_visit op.shape_apply _ _)

/-- The end of `evhttp_free`: the workers are freed, and the server is left. -/
theorem free_after_workers (hs : Linked http s) (hh : s.heap http = some h) :
    ∃ s', (s.workers.foldl (State.visit freed) s).free http = .ok s' ∧
      s'.calls = s.calls ++ s.workers ∧
      ∀ p, s'.heap p = if p = http ∨ p ∈ s.workers then none else s.heap p := by
  have hheap := heap_foldl_visit freed hs.ring.nodup s
  have hnull : (s.workers.foldl (State.visit freed) s).heap 0 = none := by
    rw [hheap]
    split
    · rfl
    · exact hs.null
  have hmain : (s.workers.foldl (State.visit freed) s).heap http = some h := by
    rw [hheap, if_neg hs.main_notMem]
    exact hh
  refine ⟨_, State.free_eq_ok hnull hmain, calls_foldl_visit freed _ s, fun p => ?_⟩
  by_cases hp : p = http
  · simp [hp]
  · simp [hp, hheap, freed]

/-- What `evhttp_free` first makes of the server. -/
def cleared : Option Evhttp → Option Evhttp := Option.map fun h => { h with callbacks := [] }

theorem sameShape_cleared (s : State) (p : Ptr) : SameShape s (s.visit cleared p) :=
  @sameShape_visit (fun h => { h with callbacks := [] }) (fun _ => rfl) s p

/-- The two ends of `evhttp_free`. -/
theorem evhttpFree_cases (hs : Linked http s) (hh : s.heap http = some h) :
    evhttpFree http s =
      if s.workers = [] then (s.visit cleared http).free http
      else (freeLoop (evhttpFreeWithin s.brk) http s.brk h.next (s.visit cleared http) >>= fun r =>
        evhttpFreeWithin s.brk r.1 r.2) >>= fun s' => s'.free http := by
  have hs' := hs.of_sameShape (sameShape_cleared s http)
  have hh' : (s.visit cleared http).heap http = some { h with callbacks := [] } := by
    simp [State.visit, hh, cleared]
  have hclear : (s.enter http).modify http (fun h => { h with callbacks := [] }) =
      .ok (s.visit cleared http) := by
    have hnull : (s.enter http).heap 0 = none := hs.null
    rw [State.modify_eq_ok _ hnull hh, State.visit, hh]
    rfl
  rw [evhttpFree, evhttpFreeWithin]
  have hbrk : (s.visit cleared http).brk = s.brk := rfl
  simp only [hclear, State.read_eq_ok hs'.null hh', hbrk, bind, Except.bind]
  by_cases hworkers : s.workers = []
  · rw [if_pos hworkers, if_neg (not_not.mpr ((hs.cur_eq_zero_iff hh).mpr hworkers))]
  · rw [if_neg hworkers, if_pos ((hs.cur_eq_zero_iff hh).not.mpr hworkers)]
    cases freeLoop (evhttpFreeWithin s.brk) http s.brk h.next (s.visit cleared http) with
    | error fault => rfl
    | ok r => rfl

/-- `evhttp_free` frees every worker once, except that it reads a single worker
after freeing it. -/
theorem evhttpFree_eq (hs : Linked http s) (hh : s.heap http = some h) :
    evhttpFree http s =
      if s.workers.length = 1 then .error .useAfterFree
      else (s.workers.foldl (State.visit freed) (s.visit cleared http)).free http := by
  rw [evhttpFree_cases hs hh]
  by_cases hworkers : s.workers = []
  · rw [if_pos hworkers, hworkers]
    rfl
  · have hs' := hs.of_sameShape (sameShape_cleared s http)
    have hh' : (s.visit cleared http).heap http = some { h with callbacks := [] } := by
      simp [State.visit, hh, cleared]
    obtain ⟨rest, hws⟩ := hs.exists_workers hh hworkers
    obtain ⟨d, hd⟩ := hs.exists_brk
    have hlength : rest.length < d + 1 := by
      have hle := hs.length_workers_le
      rwa [hws, hd] at hle
    have hwalk := freeLoop_eq d (hs'.path hh' hws) hlength
    rw [if_neg hworkers, hd]
    rw [hws] at hworkers ⊢
    refine (congrArg (· >>= fun s' => s'.free http) hwalk).trans ?_
    cases rest with
    | nil => rfl
    | cons w rest => rfl

/-- With one worker `evhttp_free` faults. -/
theorem evhttpFree_one (hs : Linked http s) (hlength : s.workers.length = 1) :
    evhttpFree http s = .error .useAfterFree := by
  obtain ⟨h, hh, -⟩ := hs.main
  rw [evhttpFree_eq hs hh, if_pos hlength]

/-- With another number of workers than one `evhttp_free` returns. -/
theorem exists_evhttpFree (hs : Linked http s) (hlength : s.workers.length ≠ 1) :
    ∃ s', evhttpFree http s = .ok s' ∧ s'.calls = s.calls ++ http :: s.workers ∧
      ∀ p, s'.heap p = if p = http ∨ p ∈ s.workers then none else s.heap p := by
  obtain ⟨h, hh, -⟩ := hs.main
  have hs' := hs.of_sameShape (sameShape_cleared s http)
  obtain ⟨h', hh', -⟩ := hs'.main
  obtain ⟨s', hfree, hcalls, hheap⟩ := free_after_workers hs' hh'
  refine ⟨s', ?_, ?_, fun p => ?_⟩
  · rw [evhttpFree_eq hs hh, if_neg hlength]
    exact hfree
  · rw [hcalls]
    exact List.append_assoc s.calls [http] s.workers
  · rw [hheap p]
    by_cases hp : p = http
    · rw [if_pos (Or.inl hp), if_pos (Or.inl hp)]
    · rw [State.heap_visit_of_ne hp]
      rfl

end SearchTools.Libevent
