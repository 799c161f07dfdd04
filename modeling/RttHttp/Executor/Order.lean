import RttHttp.Executor.Shutdown
import RttHttp.Machine.Queue
import Mathlib.Data.List.Nodup

/-! # Admitted operations are taken in order

Handlers put invocations at the back of the queue and workers take them from its
front, whichever way they are going to be dispatched. What a worker has taken it
begins before it takes anything else. Two workers may begin theirs the other way
round; a single worker begins operations as they were admitted.
-/

namespace RttHttp.Executor

/-- The invocation that a worker has taken and not begun yet. -/
def Worker.held : Worker → List Nat
  | .holding i => [i]
  | _ => []

namespace Action

/-- The invocation that is admitted. -/
def admitted : Action → List Nat
  | .handler i (.admission _ _ .admitted) => [i]
  | _ => []

/-- The invocation that a worker takes from the queue. -/
def popped : Action → List Nat
  | .worker _ (.pop i) => [i]
  | _ => []

/-- The invocation that worker `w` takes from the queue. -/
def poppedBy (w : Nat) : Action → List Nat
  | .worker v (.pop i) => if v = w then [i] else []
  | _ => []

/-- The invocation that worker `w` begins: it calls the operation or sends it, or has
failed before it could. -/
def begunBy (w : Nat) : Action → List Nat
  | .worker v (.call i) | .worker v (.evaluate i) | .worker v (.resetThrew i) =>
      if v = w then [i] else []
  | _ => []

end Action

open OperationExecutor

namespace OperationExecutor

/-- The queue of an executor. -/
def invocationQueue : Machine.Queue step Nat where
  content := queue
  enters := Action.admitted
  leaves := Action.popped
  balance := by
    intro s action next hstep
    cases action with
    | worker w action =>
        cases (workerStep_cases hstep).2 with
        | pop _ hqueue => simp [Action.admitted, Action.popped, hqueue]
        | _ => simp [Action.admitted, Action.popped, finishComplete, finishErase]
    | reaper action =>
        cases reaperStep_cases hstep <;>
          simp [Action.admitted, Action.popped, finishComplete, finishErase]
    | handler i action =>
        cases handlerStep_cases hstep <;> simp [Action.admitted, Action.popped]
    | closer action => cases closerStep_cases hstep <;> simp [Action.admitted, Action.popped]

/-- What one worker has taken, up to where it begins it. -/
def heldQueue (w : Nat) : Machine.Queue step Nat where
  content s := (s.worker w).held
  enters := Action.poppedBy w
  leaves := Action.begunBy w
  balance := by
    intro s action next hstep
    cases action with
    | worker v action =>
        by_cases hvw : v = w
        · subst hvw
          cases (workerStep_cases hstep).2 with
          | @evaluated i threw hpc =>
              cases threw <;> simp [Action.poppedBy, Action.begunBy, Worker.held, hpc]
          | pop hpc | exit hpc | call hpc | called hpc | resetThrew hpc | evaluate hpc
            | recordFailure hpc | markSent hpc | complete hpc | erase hpc =>
              simp [Action.poppedBy, Action.begunBy, Worker.held, hpc]
        · have hwv : w ≠ v := Ne.symm hvw
          cases (workerStep_cases hstep).2 <;>
            simp [Action.poppedBy, Action.begunBy, hvw, hwv, finishComplete, finishErase]
    | reaper action =>
        cases reaperStep_cases hstep <;>
          simp [Action.poppedBy, Action.begunBy, finishComplete, finishErase]
    | handler i action =>
        cases handlerStep_cases hstep <;> simp [Action.poppedBy, Action.begunBy]
    | closer action => cases closerStep_cases hstep <;> simp [Action.poppedBy, Action.begunBy]

variable {s next : OperationExecutor} {action : Action}

theorem width_of_run {actions : List Action} (hrun : Machine.run step s actions = some next) :
    next.width = s.width := by
  have hkept : ∀ (mid : OperationExecutor) action after, mid.width = s.width →
      mid.step action = some after → after.width = s.width :=
    fun _ _ _ hwidth hstep => (width_of_step hstep).trans hwidth
  exact Machine.run_invariant hkept rfl hrun

/-- A single worker takes everything that is taken. -/
theorem popped_of_single {actions : List Action} (hwidth : s.width = 1)
    (hrun : Machine.run step s actions = some next) :
    actions.flatMap Action.popped = actions.flatMap (Action.poppedBy 0) := by
  induction actions generalizing s with
  | nil => rfl
  | cons action rest ih =>
      obtain ⟨mid, hmid, hrest⟩ := Option.bind_eq_some_iff.mp hrun
      -- The guard of a worker's step leaves worker 0 only.
      have hone : action.popped = action.poppedBy 0 := by
        cases action with
        | worker w action =>
            have hw : w < s.width := (workerStep_cases hmid).1
            obtain rfl : w = 0 := by omega
            cases action <;> rfl
        | _ => rfl
      rw [List.flatMap_cons, List.flatMap_cons, hone,
        ih ((width_of_step hmid).trans hwidth) hrest]

/-- What is taken is taken by one of the workers. -/
theorem poppedBy_of_popped {actions : List Action} {i : Nat}
    (hpopped : i ∈ actions.flatMap Action.popped) (hrun : Machine.run step s actions = some next) :
    ∃ w < next.width, i ∈ actions.flatMap (Action.poppedBy w) := by
  obtain ⟨action, haction, hi⟩ := List.mem_flatMap.mp hpopped
  obtain ⟨before, after, rfl⟩ := List.append_of_mem haction
  obtain ⟨mid, mid', -, hmid, hafter⟩ := Machine.run_split hrun
  cases action with
  | worker w action =>
      refine ⟨w, ?_, List.mem_flatMap.mpr ⟨_, haction, ?_⟩⟩
      · rw [width_of_run hafter, width_of_step hmid]
        exact (workerStep_cases hmid).1
      · cases action with
        | pop => simpa [Action.popped, Action.poppedBy] using hi
        | _ => cases hi
  | _ => cases hi

/-- A handler that is still to admit its invocation has not done so. -/
theorem prepared_of_step {i : Nat} (hstep : s.step action = some next)
    (hprepared : next.handler i = .prepared) : s.handler i = .prepared ∧ i ∉ action.admitted := by
  rcases handler_of_step hstep i with hsame | ⟨own, rfl⟩
  · refine ⟨hsame ▸ hprepared, fun hadmitted => ?_⟩
    cases action with
    | handler j action =>
        cases handlerStep_cases hstep with
        | admission =>
            rw [Action.admitted, List.mem_singleton] at hadmitted
            subst hadmitted
            simp at hprepared
        | _ => simp [Action.admitted] at hadmitted
    | _ => simp [Action.admitted] at hadmitted
  · cases handlerStep_cases hstep <;> simp at hprepared

theorem admitted_of_step {i : Nat} (hstep : s.step action = some next)
    (hadmitted : i ∈ action.admitted) : s.handler i = .prepared ∧ action.admitted = [i] := by
  cases action with
  | handler j action =>
      cases handlerStep_cases hstep with
      | admission hpc =>
          rw [Action.admitted, List.mem_singleton] at hadmitted
          subst hadmitted
          exact ⟨hpc, rfl⟩
      | _ => simp [Action.admitted] at hadmitted
  | _ => simp [Action.admitted] at hadmitted

/-- No invocation is admitted twice. -/
theorem admitted_nodup {actions : List Action} (hrun : Machine.run step s actions = some next) :
    (actions.flatMap Action.admitted).Nodup ∧
      ∀ i ∈ actions.flatMap Action.admitted, s.handler i = .prepared := by
  induction actions generalizing s with
  | nil => simp
  | cons action rest ih =>
      obtain ⟨mid, hmid, hrest⟩ := Option.bind_eq_some_iff.mp hrun
      obtain ⟨hnodup, hprepared⟩ := ih hrest
      rw [List.flatMap_cons]
      refine ⟨List.Nodup.append ?_ hnodup ?_, fun i hi => ?_⟩
      · cases hadmitted : action.admitted with
        | nil => exact List.nodup_nil
        | cons i others =>
            have hone := (admitted_of_step hmid (hadmitted ▸ List.mem_cons_self)).2
            rw [← hadmitted, hone]
            exact List.nodup_singleton i
      · intro i hfirst hlater
        exact (prepared_of_step hmid (hprepared i hlater)).2 hfirst
      · rcases List.mem_append.mp hi with hfirst | hlater
        · exact (admitted_of_step hmid hfirst).1
        · exact (prepared_of_step hmid (hprepared i hlater)).1

/-- A worker has ended only if nothing is left to take and nothing will come. -/
def Ended (s : OperationExecutor) : Prop :=
  ∀ w, s.worker w = .exited → s.shutdown = true ∧ s.queue = []

theorem Ended.step (h : s.Ended) (hstep : s.step action = some next) : next.Ended := by
  intro v hv
  cases action with
  | worker w action =>
      cases (workerStep_cases hstep).2 with
      | exit _ hshutdown hqueue => exact ⟨hshutdown, hqueue⟩
      | @evaluated i threw =>
          by_cases hvw : v = w
          · subst hvw
            cases threw <;> simp at hv
          · exact h v (by simpa [Function.update_of_ne hvw] using hv)
      | @pop i rest hpc hqueue =>
          by_cases hvw : v = w
          · subst hvw
            simp at hv
          · have hempty := (h v (by simpa [Function.update_of_ne hvw] using hv)).2
            rw [hqueue] at hempty
            cases hempty
      | _ =>
          by_cases hvw : v = w
          · subst hvw
            simp at hv
          · exact h v (by simpa [Function.update_of_ne hvw, finishComplete, finishErase] using hv)
  | reaper action => cases reaperStep_cases hstep <;> exact h v hv
  | handler i action =>
      cases handlerStep_cases hstep with
      | admission _ hopen =>
          have hshutdown := (h v hv).1
          rw [hopen] at hshutdown
          cases hshutdown
      | _ => exact h v hv
  | closer action =>
      cases closerStep_cases hstep with
      | close => exact ⟨rfl, (h v hv).2⟩
      | _ => exact h v hv

/-- Once `shutdown()` has returned, every worker has ended. -/
def Emptied (s : OperationExecutor) : Prop :=
  s.Ended ∧ (s.closer = .closed → ∀ w < s.width, s.worker w = .exited)

theorem emptied_start (width : Nat) (send : Nat → Bool) : Emptied (start width send) :=
  ⟨fun w hw => by simp [start] at hw, fun hclosed => by simp [start] at hclosed⟩

theorem Emptied.step (h : s.Emptied) (hstep : s.step action = some next) : next.Emptied := by
  refine ⟨h.1.step hstep, fun hclosed => ?_⟩
  rcases closer_of_step hstep with hsame | ⟨own, rfl⟩
  · intro w hw
    rw [width_of_step hstep] at hw
    exact (exited_of_step hstep).1 w (h.2 (hsame ▸ hclosed) w hw)
  · cases closerStep_cases hstep with
    | joined _ hworkers => exact hworkers
    | begin | drained | close => simp at hclosed

/-- How the operations of a run have been taken and begun. -/
structure InOrder (actions : List Action) (s : OperationExecutor) : Prop where
  once : (actions.flatMap Action.admitted).Nodup
  ordered : actions.flatMap Action.admitted = actions.flatMap Action.popped ++ s.queue
  /-- Each worker begins what it takes, in the order in which it takes it. -/
  begun : ∀ w, actions.flatMap (Action.poppedBy w) =
    actions.flatMap (Action.begunBy w) ++ (s.worker w).held
  /-- A single worker begins operations in the order of their admission. -/
  alone : s.width = 1 → actions.flatMap Action.admitted =
    actions.flatMap (Action.begunBy 0) ++ ((s.worker 0).held ++ s.queue)
  drained : 0 < s.width → s.closer = .closed →
    actions.flatMap Action.popped = actions.flatMap Action.admitted ∧
      ∀ i ∈ actions.flatMap Action.admitted, ∃ w < s.width, i ∈ actions.flatMap (Action.begunBy w)

/-- Workers take admitted operations in the order of their admission, each begins its own
in the order in which it has taken them, and a shutdown that has returned has left none of
them waiting for a worker. -/
theorem taken_in_order (width : Nat) (send : Nat → Bool) (actions : List Action)
    (s : OperationExecutor) (hrun : Machine.run step (start width send) actions = some s) :
    InOrder actions s := by
  have hqueue : actions.flatMap Action.admitted = actions.flatMap Action.popped ++ s.queue :=
    invocationQueue.run hrun
  have hheld : ∀ w, actions.flatMap (Action.poppedBy w) =
      actions.flatMap (Action.begunBy w) ++ (s.worker w).held := fun w => (heldQueue w).run hrun
  have hemptied : s.Emptied :=
    Machine.run_invariant (fun _ _ _ h hstep => h.step hstep) (emptied_start width send) hrun
  refine ⟨(admitted_nodup hrun).1, hqueue, hheld, fun hsingle => ?_, fun hwidth hclosed => ?_⟩
  · have hwidth : (start width send).width = 1 := (width_of_run hrun).symm.trans hsingle
    rw [hqueue, popped_of_single hwidth hrun, hheld, List.append_assoc]
  · have hempty : s.queue = [] := (hemptied.1 0 (hemptied.2 hclosed 0 hwidth)).2
    rw [hempty, List.append_nil] at hqueue
    refine ⟨hqueue.symm, fun i hi => ?_⟩
    obtain ⟨w, hw, htaken⟩ := poppedBy_of_popped (hqueue ▸ hi) hrun
    -- A worker that has ended holds nothing.
    have hexited := hemptied.2 hclosed w hw
    rw [hheld w, hexited] at htaken
    exact ⟨w, hw, (List.mem_append.mp htaken).resolve_right List.not_mem_nil⟩

/-- One worker calls the first of two operations and sends the second, and the executor
shuts down. -/
def twoOperations : List Action :=
  [.handler 0 (.admission 2 none .admitted), .handler 1 (.admission 2 none .admitted),
    .worker 0 (.pop 0), .worker 0 (.call 0), .worker 0 (.called 0 (.returned true)),
    .worker 0 (.complete 0 200), .worker 0 (.erase 0),
    .worker 0 (.pop 1), .worker 0 (.evaluate 1), .worker 0 (.evaluated 1 false),
    .worker 0 (.markSent 1), .reaper (.pick 1), .reaper (.check 1),
    .reaper (.collect 1 (.returned .sendSuccess)), .reaper (.readStatus 1),
    .reaper (.complete 1 200), .reaper (.erase 1), .reaper .endScan,
    .closer .begin, .closer .drained, .closer .close, .reaper .exit, .worker 0 .exit,
    .closer .joined]

theorem taken_in_order_twoOperations :
    ∃ s, Machine.run step (start 1 (· == 1)) twoOperations = some s ∧ s.closer = .closed ∧
      twoOperations.flatMap (Action.begunBy 0) = [0, 1] ∧ InOrder twoOperations s := by
  have hshape : (Machine.run step (start 1 (· == 1)) twoOperations).map (·.closer) =
      some .closed := by decide
  obtain ⟨s, hrun, hclosed⟩ := Option.map_eq_some_iff.mp hshape
  exact ⟨s, hrun, hclosed, by decide, taken_in_order 1 _ twoOperations s hrun⟩

end OperationExecutor

end RttHttp.Executor
