/-
# Rings of linked nodes

A ring is a circular list: following the links from any of its nodes passes
every node and comes back. It is given by the list of its nodes, from the one
that the ring is entered at. A pointer that goes around it serves the node it is at
before every move.
-/

import Mathlib.Data.List.Chain
import Mathlib.Data.List.Cycle
import Mathlib.Data.List.Nodup
import Mathlib.Data.Nat.Notation

namespace SearchTools.Library

universe u

variable {α : Type u}

/-- Each node of `ws` links to the one after it, and the last one to the first. -/
structure IsRing (next : α → Option α) (ws : List α) : Prop where
  nodup : ws.Nodup
  chain : ∀ head ∈ ws.head?, (ws ++ [head]).IsChain fun a b => next a = some b

variable {next next' : α → Option α} {ws : List α}

theorem isRing_nil : IsRing next [] := ⟨List.nodup_nil, nofun⟩

theorem isRing_singleton {w : α} (h : next w = some w) : IsRing next [w] where
  nodup := List.nodup_singleton w
  chain := by
    rintro _ ⟨⟩
    exact List.isChain_pair.mpr h

/-- A ring is about the links of its nodes only. -/
theorem IsRing.congr (h : IsRing next ws) (heq : ∀ w ∈ ws, next' w = next w) :
    IsRing next' ws where
  nodup := h.nodup
  chain := by
    intro head hhead
    have hmem : ∀ w ∈ ws ++ [head], w ∈ ws := by
      intro w hw
      rcases List.mem_append.mp hw with hw | hw
      · exact hw
      · exact List.mem_singleton.mp hw ▸ List.mem_of_mem_head? hhead
    refine (h.chain head hhead).imp_of_mem_imp fun a b ha _ hab => ?_
    rw [heq a (hmem a ha), hab]

/-- Links lead from node to node. -/
theorem IsRing.exists_next (h : IsRing next ws) {w : α} (hw : w ∈ ws) :
    ∃ w' ∈ ws, next w = some w' := by
  obtain ⟨before, after, rfl⟩ := List.append_of_mem hw
  obtain ⟨head, hhead⟩ : ∃ head, head ∈ (before ++ w :: after).head? := by
    cases before with
    | nil => exact ⟨w, rfl⟩
    | cons b before => exact ⟨b, rfl⟩
  have hchain := h.chain head hhead
  rw [List.append_assoc] at hchain
  have hrest := hchain.right_of_append
  cases after with
  | nil => exact ⟨head, List.mem_of_mem_head? hhead, (List.isChain_cons_cons.mp hrest).1⟩
  | cons w' after =>
      refine ⟨w', by simp, ?_⟩
      rw [List.cons_append, List.cons_append, List.isChain_cons_cons] at hrest
      exact hrest.1

/-- The links along a path are those of its nodes before the last one. -/
theorem isChain_next_congr {init : List α} {last : α}
    (h : (init ++ [last]).IsChain fun a b => next a = some b)
    (heq : ∀ w ∈ init, next' w = next w) :
    (init ++ [last]).IsChain fun a b => next' a = some b := by
  induction init with
  | nil => exact List.isChain_singleton last
  | cons w init ih =>
      obtain ⟨hw, hinit⟩ := List.forall_mem_cons.mp heq
      rw [List.cons_append, List.isChain_cons] at h ⊢
      exact ⟨fun b hb => hw.trans (h.1 b hb), ih h.2 hinit⟩

/-- A new node goes between the last node and the first one. -/
theorem IsRing.concat {init : List α} {last new head : α} (h : IsRing next (init ++ [last]))
    (hhead : head ∈ (init ++ [last]).head?) (hnew : new ∉ init ++ [last])
    (heq : ∀ w ∈ init, next' w = next w) (hlast : next' last = some new)
    (hnext : next' new = some head) : IsRing next' (init ++ [last] ++ [new]) where
  nodup := by
    rw [List.nodup_append]
    refine ⟨h.nodup, List.nodup_singleton new, ?_⟩
    rintro w hw _ hw' rfl
    exact hnew (List.mem_singleton.mp hw' ▸ hw)
  chain := by
    intro head' hhead'
    obtain rfl : head' = head := by
      rw [List.head?_append_of_ne_nil _ (by simp), Option.mem_def.mp hhead] at hhead'
      exact (Option.some.inj hhead').symm
    have hinit := isChain_next_congr (h.chain head' hhead).left_of_append heq
    have hend : [new, head'].IsChain fun a b => next' a = some b :=
      List.isChain_cons_cons.mpr ⟨hnext, List.isChain_singleton head'⟩
    rw [List.append_assoc]
    refine hinit.append hend ?_
    simpa using hlast

/-! ## Walks -/

section Walk

variable {σ : Type u} {ε : Type*} {loop : ℕ → α → σ → Except ε (α × σ)} {call : α → σ → Except ε σ}
  {visit : σ → α → σ} {Path : List α → σ → Prop} {head : α} [DecidableEq α]

/-- A loop that calls a function on a node, moves on, and ends where the next
link leads to `head`, followed by a call on the node that it ends at. Along a
path to `head` of two nodes or more every node is called once. -/
theorem walk_eq
    (hloop : ∀ fuel w w' w'' rest s, Path (w :: w' :: rest) s → w'' ∈ (rest ++ [head]).head? →
      loop (fuel + 1) w s =
        if w'' ≠ head then loop fuel w' (visit s w) else .ok (w', visit s w))
    (hcall : ∀ w s, Path [w] s → call w s = .ok (visit s w))
    (htail : ∀ w rest s, Path (w :: rest) s → Path rest (visit s w))
    {w w' : α} {rest : List α} (hhead : head ∉ rest) {fuel : ℕ} (hfuel : rest.length < fuel) {s : σ}
    (hpath : Path (w :: w' :: rest) s) :
    (loop fuel w s >>= fun r => call r.1 r.2) = .ok ((w :: w' :: rest).foldl visit s) := by
  induction rest generalizing w w' fuel s with
  | nil =>
      cases fuel with
      | zero => exact absurd hfuel (Nat.not_lt_zero _)
      | succ fuel =>
          rw [hloop fuel w w' head [] s hpath rfl, if_neg (not_not.mpr rfl)]
          exact hcall w' _ (htail w [w'] s hpath)
  | cons w'' rest ih =>
      have hne : w'' ≠ head := fun heq => hhead (heq ▸ List.mem_cons_self)
      cases fuel with
      | zero => exact absurd hfuel (Nat.not_lt_zero _)
      | succ fuel =>
          rw [hloop fuel w w' w'' (w'' :: rest) s hpath rfl, if_pos hne]
          exact ih (fun hmem => hhead (List.mem_cons_of_mem _ hmem))
            (Nat.lt_of_succ_lt_succ hfuel) (htail w _ s hpath)

end Walk

/-! ## Going around a ring -/

/-- The links of a ring form a cycle, whatever node it is entered at. -/
theorem isRing_iff : IsRing next ws ↔
    ws.Nodup ∧ Cycle.Chain (fun a b => next a = some b) (ws : Cycle α) := by
  cases ws with
  | nil => exact iff_of_true isRing_nil ⟨List.nodup_nil, trivial⟩
  | cons w ws =>
      rw [Cycle.chain_coe_cons]
      constructor
      · intro h
        exact ⟨h.nodup, h.chain w rfl⟩
      · intro h
        refine ⟨h.1, fun head hhead => ?_⟩
        obtain rfl := Option.some.inj hhead
        exact h.2

/-- A ring can be entered at any of its nodes. -/
theorem IsRing.exists_rotation (h : IsRing next ws) {w : α} (hw : w ∈ ws) :
    ∃ rest, IsRing next (w :: rest) ∧ (w :: rest).Perm ws := by
  rcases List.append_of_mem hw with ⟨before, after, rfl⟩
  have hrotated : (before ++ w :: after) ~r (w :: after ++ before) := List.isRotated_append
  refine ⟨after ++ before, ?_, hrotated.perm.symm⟩
  rw [isRing_iff] at h ⊢
  refine ⟨hrotated.nodup_iff.mp h.1, ?_⟩
  rw [← List.cons_append, ← Cycle.coe_eq_coe.mpr hrotated]
  exact h.2

/-- The pointer is in its round number `base`: the nodes that it has passed in this
round were served once more than the others. -/
def InTurn (order : List α) (cur : α) (count : α → ℕ) : Prop :=
  ∃ before after base, order = before ++ cur :: after ∧
    (∀ w ∈ before, count w = base + 1) ∧ ∀ w ∈ cur :: after, count w = base

theorem inTurn_start (cur : α) (rest : List α) : InTurn (cur :: rest) cur fun _ => 0 :=
  ⟨[], rest, 0, rfl, fun _ hw => absurd hw List.not_mem_nil, fun _ _ => rfl⟩

/-- Serving a node and moving on. At the last node a new round begins. -/
theorem InTurn.step {order : List α} (hring : IsRing next order) {cur cur' : α} {count : α → ℕ}
    (h : InTurn order cur count) (hnext : next cur = some cur') {count' : α → ℕ}
    (hcur : count' cur = count cur + 1) (hothers : ∀ w, w ≠ cur → count' w = count w) :
    InTurn order cur' count' := by
  rcases h with ⟨before, after, base, rfl, hbefore, hafter⟩
  have hnodup := hring.nodup
  rw [List.nodup_append] at hnodup
  rcases hnodup with ⟨-, hnodup, hdisjoint⟩
  have hpassed : ∀ w ∈ before ++ [cur], count' w = base + 1 := by
    intro w hw
    rcases List.mem_append.mp hw with hw | hw
    · rw [hothers w (hdisjoint w hw cur List.mem_cons_self)]
      exact hbefore w hw
    · rw [List.mem_singleton.mp hw, hcur, hafter cur List.mem_cons_self]
  rcases List.exists_cons_of_ne_nil (List.append_ne_nil_of_right_ne_nil before
    (List.cons_ne_nil cur after)) with ⟨head, rest, hhead⟩
  have hchain := hring.chain head (by rw [hhead]; rfl)
  rw [List.append_assoc] at hchain
  have hlink := hchain.right_of_append
  cases after with
  | nil =>
      have hback : next cur = some head := (List.isChain_cons_cons.mp hlink).1
      obtain rfl : cur' = head := Option.some.inj (hnext.symm.trans hback)
      refine ⟨[], rest, base + 1, hhead, fun _ hw => absurd hw List.not_mem_nil, ?_⟩
      rw [← hhead]
      exact hpassed
  | cons w after =>
      have hforth : next cur = some w := (List.isChain_cons_cons.mp hlink).1
      obtain rfl : cur' = w := Option.some.inj (hnext.symm.trans hforth)
      refine ⟨before ++ [cur], after, base, (List.append_cons before cur _), hpassed, ?_⟩
      intro v hv
      have hne : v ≠ cur := by
        rintro rfl
        exact (List.nodup_cons.mp hnodup).1 hv
      rw [hothers v hne]
      exact hafter v (List.mem_cons_of_mem cur hv)

/-- No node is more than one turn ahead of another. -/
theorem InTurn.le {order : List α} {cur : α} {count : α → ℕ} (h : InTurn order cur count) {w v : α}
    (hw : w ∈ order) (hv : v ∈ order) : count w ≤ count v + 1 := by
  rcases h with ⟨before, after, base, rfl, hbefore, hafter⟩
  have hle : count w ≤ base + 1 := by
    rcases List.mem_append.mp hw with hw | hw
    · exact Nat.le_of_eq (hbefore w hw)
    · exact Nat.le_succ_of_le (Nat.le_of_eq (hafter w hw))
  have hge : base ≤ count v := by
    rcases List.mem_append.mp hv with hv | hv
    · exact Nat.le_trans (Nat.le_succ base) (Nat.le_of_eq (hbefore v hv).symm)
    · exact Nat.le_of_eq (hafter v hv).symm
  exact Nat.le_trans hle (Nat.succ_le_succ hge)

end SearchTools.Library
