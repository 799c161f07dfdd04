import RttHttp.Machine.Run
import Mathlib.Data.List.Perm.Basic

/-! # Queues and bags along a run

What a machine holds is what came in and has not left. When each step keeps that
balance, so does a run: items of a queue leave it in the order in which they came,
items of a bag leave it in any order. A ranking bounds how long a run can be.
-/

namespace RttHttp.Machine

variable {State Action Item : Type*} {step : State → Action → Option State}

/-- A queue of a machine: what enters goes to the back, what leaves is the front. -/
structure Queue (step : State → Action → Option State) (Item : Type*) where
  content : State → List Item
  enters : Action → List Item
  leaves : Action → List Item
  balance : ∀ {s action next}, step s action = some next →
    content s ++ enters action = leaves action ++ content next

/-- A run keeps the balance of a queue. -/
theorem Queue.run (queue : Queue step Item) {actions : List Action} {s final : State}
    (hrun : Machine.run step s actions = some final) :
    queue.content s ++ actions.flatMap queue.enters =
      actions.flatMap queue.leaves ++ queue.content final := by
  induction actions generalizing s with
  | nil =>
      cases hrun
      simp
  | cons action rest ih =>
      obtain ⟨next, hnext, hrest⟩ := Option.bind_eq_some_iff.mp hrun
      rw [List.flatMap_cons, List.flatMap_cons, ← List.append_assoc, queue.balance hnext,
        List.append_assoc, ih hrest, List.append_assoc]

/-- A bag of a machine: items leave in any order. -/
structure Bag (step : State → Action → Option State) (Item : Type*) where
  content : State → List Item
  enters : Action → List Item
  leaves : Action → List Item
  balance : ∀ {s action next}, step s action = some next →
    (content s ++ enters action).Perm (leaves action ++ content next)

/-- A run keeps the balance of a bag. -/
theorem Bag.run (bag : Bag step Item) {actions : List Action} {s final : State}
    (hrun : Machine.run step s actions = some final) :
    (bag.content s ++ actions.flatMap bag.enters).Perm
      (actions.flatMap bag.leaves ++ bag.content final) := by
  induction actions generalizing s with
  | nil =>
      cases hrun
      simp
  | cons action rest ih =>
      obtain ⟨next, hnext, hrest⟩ := Option.bind_eq_some_iff.mp hrun
      have hone := (bag.balance hnext).append_right (rest.flatMap bag.enters)
      have hall := (ih hrest).append_left (bag.leaves action)
      simp only [List.flatMap_cons, List.append_assoc] at hone hall ⊢
      exact hone.trans hall

/-- A ranking that pays for the selected actions bounds how many of them a run takes. -/
theorem run_countP_le_rank {invariant : State → Prop} {allowed : Action → Prop}
    {rank : State → Nat} {selected : Action → Bool}
    (hstep : ∀ s action next, invariant s → allowed action → step s action = some next →
      invariant next ∧ rank next + (if selected action then 1 else 0) ≤ rank s)
    {actions : List Action} {s final : State} (hs : invariant s)
    (hallowed : ∀ action ∈ actions, allowed action)
    (hrun : run step s actions = some final) :
    invariant final ∧ rank final + actions.countP selected ≤ rank s := by
  induction actions generalizing s with
  | nil =>
      cases hrun
      exact ⟨hs, Nat.le_refl _⟩
  | cons action rest ih =>
      obtain ⟨next, hnext, hrest⟩ := Option.bind_eq_some_iff.mp hrun
      obtain ⟨haction, htail⟩ := List.forall_mem_cons.mp hallowed
      obtain ⟨hinvariant, hone⟩ := hstep s action next hs haction hnext
      obtain ⟨hfinal, hrank⟩ := ih hinvariant htail hrest
      refine ⟨hfinal, ?_⟩
      rw [List.countP_cons]
      omega

end RttHttp.Machine
