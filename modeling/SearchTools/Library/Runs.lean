/-
# Runs of steps

What a run reaches is the closure of its steps. An interleaving is a run of actions that
several parties take, each of which may be disabled in a state, or fault. A framer takes
whole items off the front of a buffer, each in one step, and stops when there is none.
More can come later: when no item is cut off too early, what it has done in the end does
not depend on how the input came.
-/

import Mathlib.Logic.Relation
import SearchTools.Library.Memory

namespace SearchTools.Library

universe u v

section Interleavings

variable {σ α : Type u} {step : α → σ → Except Fault (Option σ)}

/-- Some action leads from one state to the other. -/
def Moves (step : α → σ → Except Fault (Option σ)) (x y : σ) : Prop :=
  ∃ action, step action x = .ok (some y)

/-- Some sequence of actions leads from one state to the other. -/
def Reaches (step : α → σ → Except Fault (Option σ)) : σ → σ → Prop :=
  Relation.ReflTransGen (Moves step)

/-- What holds at the start and is kept by every action holds of every state that
a run reaches. -/
theorem Reaches.invariant {Inv : σ → Prop} {x y : σ}
    (hstep : ∀ action x y, Inv x → step action x = .ok (some y) → Inv y)
    (hx : Inv x) (h : Reaches step x y) : Inv y := by
  induction h with
  | refl => exact hx
  | tail _ hmove ih =>
      obtain ⟨action, haction⟩ := hmove
      exact hstep action _ _ ih haction

end Interleavings

/-- One item, taken in some state: the next state and what is left, or nothing yet. -/
abbrev Framer (σ : Type u) (α : Type v) := σ → List α → Option (σ × List α)

namespace Framer

variable {σ : Type u} {α : Type v} (take : Framer σ α)

/-- Some items are taken. -/
def Takes : σ × List α → σ × List α → Prop :=
  Relation.ReflTransGen fun x y => take x.1 x.2 = some y

/-- All items are taken. -/
def Stops (x y : σ × List α) : Prop := take.Takes x y ∧ take y.1 y.2 = none

/-- In no state on the way is an item cut off at the end of the buffer. -/
def Whole (x : σ × List α) (more : List α) : Prop :=
  ∀ y, take.Takes x y → ∀ z, take y.1 y.2 = some z →
    take y.1 (y.2 ++ more) = some (z.1, z.2 ++ more)

variable {take} {x y z : σ × List α} {more : List α}

theorem Stops.unique (h : take.Stops x y) (h' : take.Stops x z) : y = z := by
  obtain ⟨htakes, hstop⟩ := h
  induction htakes using Relation.ReflTransGen.head_induction_on with
  | refl =>
    rcases Relation.ReflTransGen.cases_head h'.1 with rfl | ⟨w, hw, -⟩
    · rfl
    · rw [hstop] at hw
      cases hw
  | head hstep _ ih =>
    rcases Relation.ReflTransGen.cases_head h'.1 with rfl | ⟨w, hw, hrest⟩
    · rw [h'.2] at hstep
      cases hstep
    · rw [hstep] at hw
      cases hw
      exact ih ⟨hrest, h'.2⟩

theorem Takes.stops (h : take.Takes x y) (hy : take.Stops y z) : take.Stops x z :=
  ⟨h.trans hy.1, hy.2⟩

/-- What was taken is taken in the same way when more stands behind it. -/
theorem Takes.append (h : take.Takes x y) (hwhole : take.Whole x more) :
    take.Takes (x.1, x.2 ++ more) (y.1, y.2 ++ more) := by
  induction h with
  | refl => exact .refl
  | tail hxy hstep ih => exact .tail ih (hwhole _ hxy _ hstep)

theorem Stops.append (h : take.Stops x y) (hwhole : take.Whole x more)
    (hmore : take.Stops (y.1, y.2 ++ more) z) : take.Stops (x.1, x.2 ++ more) z :=
  ⟨(Takes.append h.1 hwhole).trans hmore.1, hmore.2⟩

end Framer

end SearchTools.Library
