/-
# Mailboxes with a counter

A producer appends an item to a queue and then posts a token; a consumer takes
a token, then removes the first item, then serves it. The two sides interleave
step by step. The tokens count the items that no one is about to remove, so the
consumer never finds the queue empty, and the items are served in the order of
sending.
-/

import Mathlib.Data.Nat.Notation

namespace SearchTools.Library

variable {τ : Type*}

/-- What the consumer is doing. -/
inductive Consumer (τ : Type*)
  | waiting
  | notified
  | removed (item : τ)
  deriving DecidableEq, Repr

/-- A mailbox, with the items sent to it and the items served from it so far. -/
structure Mailbox (τ : Type*) where
  queue : List τ
  tokens : ℕ
  consumer : Consumer τ
  /-- Whether the producer has appended an item and not yet posted its token. -/
  owed : Bool
  sent : List τ
  served : List τ

/-- The item between its removal and its service. -/
def Consumer.inHand : Consumer τ → List τ
  | .removed item => [item]
  | _ => []

/-- The tokens that were taken for an item still in the queue. -/
def Consumer.taken : Consumer τ → ℕ
  | .notified => 1
  | _ => 0

namespace Mailbox

/-- The steps of the two sides. -/
inductive Step : Mailbox τ → Mailbox τ → Prop
  | append {m : Mailbox τ} (item : τ) (howed : m.owed = false) :
      Step m { m with queue := m.queue ++ [item], owed := true, sent := m.sent ++ [item] }
  | post {m : Mailbox τ} (howed : m.owed = true) :
      Step m { m with tokens := m.tokens + 1, owed := false }
  | take {m : Mailbox τ} {n : ℕ} (hconsumer : m.consumer = .waiting) (htokens : m.tokens = n + 1) :
      Step m { m with tokens := n, consumer := .notified }
  | remove {m : Mailbox τ} {item : τ} {rest : List τ} (hconsumer : m.consumer = .notified)
      (hqueue : m.queue = item :: rest) :
      Step m { m with queue := rest, consumer := .removed item }
  | serve {m : Mailbox τ} {item : τ} (hconsumer : m.consumer = .removed item) :
      Step m { m with consumer := .waiting, served := m.served ++ [item] }

/-- Every item of the queue has its token: in the mailbox, in the hands of the
consumer, or still to be posted. Every item sent was served or waits its turn. -/
structure Balanced (m : Mailbox τ) : Prop where
  queue : m.queue.length = m.tokens + m.consumer.taken + m.owed.toNat
  sent : m.sent = m.served ++ m.consumer.inHand ++ m.queue

variable {m m' : Mailbox τ}

theorem Balanced.step (hm : m.Balanced) (h : Step m m') : m'.Balanced := by
  obtain ⟨hqueue, hsent⟩ := hm
  cases h with
  | append item howed =>
      rw [howed] at hqueue
      refine ⟨?_, ?_⟩
      · simp only [List.length_append, List.length_singleton, hqueue]
        rfl
      · simp only [hsent, List.append_assoc]
  | post howed =>
      rw [howed] at hqueue
      refine ⟨?_, hsent⟩
      simp only [hqueue, Bool.toNat_true, Bool.toNat_false]
      omega
  | take hconsumer htokens =>
      rw [hconsumer] at hqueue hsent
      rw [htokens] at hqueue
      refine ⟨?_, hsent⟩
      simp only [hqueue, Consumer.taken]
  | remove hconsumer hitem =>
      rw [hconsumer, hitem] at hqueue hsent
      refine ⟨?_, ?_⟩
      · simp only [List.length_cons, Consumer.taken] at hqueue ⊢
        omega
      · simp only [hsent, Consumer.inHand, List.append_assoc, List.nil_append,
          List.singleton_append]
  | serve hconsumer =>
      rw [hconsumer] at hqueue hsent
      refine ⟨hqueue, ?_⟩
      simp only [hsent, Consumer.inHand, List.append_nil]

/-- The consumer finds the item that its token announced. -/
theorem Balanced.exists_cons (hm : m.Balanced) (hconsumer : m.consumer = .notified) :
    ∃ item rest, m.queue = item :: rest := by
  have hqueue := hm.queue
  rw [hconsumer] at hqueue
  cases h : m.queue with
  | nil =>
      rw [h] at hqueue
      simp only [List.length_nil, Consumer.taken] at hqueue
      omega
  | cons item rest => exact ⟨item, rest, rfl⟩

/-- Items are served in the order of sending, each at most once. -/
theorem Balanced.isPrefix_served (hm : m.Balanced) : m.served <+: m.sent := by
  rw [hm.sent, List.append_assoc]
  exact List.prefix_append _ _

/-- With no token and both sides at rest, nothing is left behind. -/
theorem Balanced.settled (hm : m.Balanced) (howed : m.owed = false) (htokens : m.tokens = 0)
    (hconsumer : m.consumer = .waiting) : m.queue = [] ∧ m.served = m.sent := by
  obtain ⟨hqueue, hsent⟩ := hm
  rw [howed, htokens, hconsumer] at hqueue
  have hnil : m.queue = [] := List.length_eq_zero_iff.mp hqueue
  rw [hnil, hconsumer] at hsent
  exact ⟨hnil, by rw [hsent]; simp [Consumer.inHand]⟩

end Mailbox

end SearchTools.Library
