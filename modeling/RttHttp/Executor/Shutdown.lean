import RttHttp.Executor.Simulation

/-! # Shutting the executor down

`shutdown()` drains the executor, closes it in a second critical section and joins the
threads. An admission may fall between the two sections. The workers empty the queue
before they leave, but the reaper leaves after any scan, so such an admission is in time
only for a direct call.
-/

namespace RttHttp.Executor

open OperationExecutor

namespace OperationExecutor

/-- An admission between `drain()` and the closing section must be a direct call, and
there must be a worker to make it. -/
def InTime (s : OperationExecutor) : Action → Prop
  | .handler i (.admission _ _ .admitted) =>
      s.closer = .drained → (s.invocation i).send = false ∧ 0 < s.width
  | _ => True

instance (s : OperationExecutor) : DecidablePred (InTime s) := fun action => by
  unfold InTime
  split <;> infer_instance

end OperationExecutor

section Step

variable {s next : OperationExecutor} {action : Action}

/-- The path of an invocation is chosen before admission. -/
theorem send_of_step (hstep : s.step action = some next) (i : Nat) :
    (next.invocation i).send = (s.invocation i).send := by
  have hset : ∀ (j : Nat) (value : Invocation), value.send = (s.invocation j).send →
      (Function.update s.invocation j value i).send = (s.invocation i).send := by
    intro j value hvalue
    by_cases hij : i = j
    · rw [hij, Function.update_self, hvalue]
    · rw [Function.update_of_ne hij]
  cases action with
  | worker w action => cases (workerStep_cases hstep).2 <;> first | rfl | exact hset _ _ rfl
  | reaper action => cases reaperStep_cases hstep <;> first | rfl | exact hset _ _ rfl
  | handler j action => cases handlerStep_cases hstep <;> rfl
  | closer action => cases closerStep_cases hstep <;> rfl

/-- Workers leave only when nothing is queued, and only an invocation with a send data
source is sent. -/
structure Dispatches (s : OperationExecutor) : Prop where
  exited : ∀ w, s.worker w = .exited → s.shutdown = true ∧ s.queue = []
  sending : ∀ w i, s.worker w = .evaluating i ∨ s.worker w = .caught i ∨ s.worker w = .sending i →
    (s.invocation i).send = true
  sent : ∀ i, (s.invocation i).sent = true → (s.invocation i).send = true

theorem dispatches_start (width : Nat) (send : Nat → Bool) : Dispatches (start width send) := by
  refine ⟨?_, ?_, ?_⟩ <;> simp [start]

theorem Dispatches.step (h : Dispatches s) (hstep : s.step action = some next) :
    Dispatches next := by
  obtain ⟨hexited, hsending, hsent⟩ := h
  cases action with
  | worker w action =>
      cases (workerStep_cases hstep).2 <;> refine ⟨?_, ?_, ?_⟩ <;>
        simp only [setWorker, setInvocation, finishComplete, finishErase, Function.update_apply] <;>
        grind
  | reaper action =>
      cases reaperStep_cases hstep <;> refine ⟨?_, ?_, ?_⟩ <;>
        simp only [setInvocation, finishComplete, finishErase, Function.update_apply] <;> grind
  | handler j action =>
      cases handlerStep_cases hstep <;> refine ⟨?_, ?_, ?_⟩ <;> simp only [setHandler] <;> grind
  | closer action => cases closerStep_cases hstep <;> exact ⟨by grind, hsending, hsent⟩

/-- What holds of a shutdown in progress when every admission was in time. -/
structure Closing (s : OperationExecutor) : Prop where
  direct : s.closer = .drained ∨ s.closer = .joining →
    ∀ i ∈ s.pending, (s.invocation i).send = false ∧ 0 < s.width
  marked : s.closer = .joining ∨ s.closer = .closed → s.shutdown = true
  closed : s.closer = .closed →
    s.pending = [] ∧ (∀ w < s.width, s.worker w = .exited) ∧ s.reaper = .exited

theorem closing_start (width : Nat) (send : Nat → Bool) : Closing (start width send) := by
  refine ⟨?_, ?_, ?_⟩ <;> simp [start]

/-- Nothing direct is pending any more once all threads have left. -/
theorem Tracks.pending_eq_nil {g : Nat → Stage} (h : Tracks s g) (hdispatches : Dispatches s)
    (hdirect : ∀ i ∈ s.pending, (s.invocation i).send = false ∧ 0 < s.width)
    (hworkers : ∀ w < s.width, s.worker w = .exited) (hreaper : s.reaper = .exited) :
    s.pending = [] := by
  refine List.eq_nil_iff_forall_not_mem.mpr fun i hi => ?_
  obtain ⟨hsend, hwidth⟩ := hdirect i hi
  have hat := h.tracked i
  have howned : ∀ w pc, (g i).worker i ≠ some (w, pc) := by
    intro w pc hpc
    obtain ⟨hworker, hw⟩ := hat.owned w pc hpc
    rw [hworkers w hw] at hworker
    have hinvocation := Stage.worker_invocation hpc
    rw [← hworker] at hinvocation
    cases hinvocation
  have hretained := hat.mem_pending.mp hi
  cases hg : g i with
  | queued =>
      have hqueue := (hdispatches.exited 0 (hworkers 0 hwidth)).2
      have hmem := hat.mem_queue.mpr hg
      rw [hqueue] at hmem
      cases hmem
  | awaiting threw =>
      -- Only the reaper could collect it, but a direct call is never sent.
      have hsent := hat.flags.1
      rw [hg] at hsent
      rw [hdispatches.sent i hsent] at hsend
      cases hsend
  | completed finisher status =>
      cases finisher with
      | none =>
          obtain ⟨index, hindex⟩ := hat.reaped status hg
          rw [hreaper] at hindex
          cases hindex
      | some w => exact howned w _ (by rw [hg]; rfl)
  | prepared | declined | released => simp [hg, Stage.retained] at hretained
  | held w => exact howned w _ (by rw [hg]; rfl)
  | calling w => exact howned w _ (by rw [hg]; rfl)
  | called w status => exact howned w _ (by rw [hg]; rfl)
  | evaluating w => exact howned w _ (by rw [hg]; rfl)
  | failing w => exact howned w _ (by rw [hg]; rfl)
  | sending w threw => exact howned w _ (by rw [hg]; rfl)

/-- Threads that have left stay where they are. -/
theorem exited_of_step (hstep : s.step action = some next) :
    (∀ w, s.worker w = .exited → next.worker w = .exited) ∧
      (s.reaper = .exited → next.reaper = .exited) := by
  cases action with
  | worker w action =>
      cases (workerStep_cases hstep).2 <;> refine ⟨?_, id⟩ <;>
        simp only [setWorker, setInvocation, finishComplete, finishErase, Function.update_apply] <;>
        grind
  | reaper action => cases reaperStep_cases hstep <;> refine ⟨fun _ => id, ?_⟩ <;> grind
  | handler j action => cases handlerStep_cases hstep <;> exact ⟨fun _ => id, id⟩
  | closer action => cases closerStep_cases hstep <;> exact ⟨fun _ => id, id⟩

theorem shutdown_of_step (hstep : s.step action = some next) (hshutdown : s.shutdown = true) :
    next.shutdown = true := by
  cases action with
  | worker w action => cases (workerStep_cases hstep).2 <;> exact hshutdown
  | reaper action => cases reaperStep_cases hstep <;> exact hshutdown
  | handler j action => cases handlerStep_cases hstep <;> exact hshutdown
  | closer action => cases closerStep_cases hstep <;> first | exact hshutdown | rfl

/-- A step of another thread than the closing one. -/
theorem Closing.other (h : Closing s) (hallowed : s.InTime action)
    (hstep : s.step action = some next) (hcloser : next.closer = s.closer) : Closing next := by
  have hwidth := width_of_step hstep
  refine ⟨?_, ?_, ?_⟩
  · rw [hcloser, hwidth]
    intro hpoint i hi
    rw [send_of_step hstep]
    rcases pending_of_step hstep with hsublist | ⟨j, cap, rfl, -, hpending⟩
    · exact h.direct hpoint i (hsublist.subset hi)
    · rw [hpending] at hi
      rcases List.mem_append.mp hi with hold | hnew
      · exact h.direct hpoint i hold
      · -- A new invocation: the executor is not closed yet, so this is the gap.
        rw [List.mem_singleton.mp hnew]
        rcases hpoint with hdrained | hjoining
        · exact hallowed hdrained
        · cases handlerStep_cases hstep with
          | admission _ hopen =>
              rw [h.marked (.inl hjoining)] at hopen
              cases hopen
  · rw [hcloser]
    exact fun hpoint => shutdown_of_step hstep (h.marked hpoint)
  · rw [hcloser, hwidth]
    intro hclosed
    obtain ⟨hpending, hworkers, hreaper⟩ := h.closed hclosed
    obtain ⟨hkept, hkeptReaper⟩ := exited_of_step hstep
    refine ⟨?_, fun w hw => hkept w (hworkers w hw), hkeptReaper hreaper⟩
    rcases pending_of_step hstep with hsublist | ⟨j, cap, rfl, -, -⟩
    · rw [hpending] at hsublist
      exact List.sublist_nil.mp hsublist
    · cases handlerStep_cases hstep with
      | admission _ hopen =>
          rw [h.marked (.inr hclosed)] at hopen
          cases hopen

theorem Closing.step {g : Nat → Stage} (h : Closing s) (htracks : Tracks s g)
    (hdispatches : Dispatches s) (hallowed : s.InTime action) (hstep : s.step action = some next) :
    Closing next := by
  cases action with
  | closer action =>
      cases closerStep_cases hstep with
      | begin hpc => refine ⟨?_, ?_, ?_⟩ <;> simp
      | drained hpc hempty => refine ⟨?_, ?_, ?_⟩ <;> simp [hempty]
      | close hpc =>
          refine ⟨fun _ => h.direct (.inl hpc), fun _ => rfl, ?_⟩
          simp
      | joined hpc hworkers hreaper =>
          refine ⟨by simp, fun _ => h.marked (.inl hpc), fun _ => ⟨?_, hworkers, hreaper⟩⟩
          exact htracks.pending_eq_nil hdispatches (h.direct (.inr hpc)) hworkers hreaper
  | worker w action => exact h.other hallowed hstep ((closer_of_step hstep).resolve_right (by simp))
  | reaper action => exact h.other hallowed hstep ((closer_of_step hstep).resolve_right (by simp))
  | handler i action => exact h.other hallowed hstep ((closer_of_step hstep).resolve_right (by simp))

end Step

/-! ## Every run -/

/-- In every run in which each admission between `drain()` and the closing section is a
direct call, `shutdown()` strands nothing, and the destructor can shut down once more. -/
theorem shutdown_completes (width : Nat) (send : Nat → Bool) (actions : List Action)
    (s : OperationExecutor) (hrun : Machine.run step (start width send) actions = some s)
    (hallowed : Machine.Along step InTime (start width send) actions)
    (hclosed : s.closer = .closed) :
    (∀ i, s.Admitted i → (s.invocation i).complete = true ∧ i ∉ s.pending) ∧
    ∃ final, Machine.run step s
      [.closer .begin, .closer .drained, .closer .close, .closer .joined] = some final ∧
      final.closer = .closed := by
  have hstep : ∀ mid action next, ((∃ g, Tracks mid g) ∧ Dispatches mid ∧ Closing mid) →
      InTime mid action → step mid action = some next →
      (∃ g, Tracks next g) ∧ Dispatches next ∧ Closing next := by
    rintro mid action next ⟨⟨g, htracks⟩, hdispatches, hclosing⟩ hintime hstep
    exact ⟨htracks.exists_step hstep, hdispatches.step hstep,
      hclosing.step htracks hdispatches hintime hstep⟩
  obtain ⟨⟨g, htracks⟩, -, hclosing⟩ := Machine.run_invariant_of hstep
    ⟨⟨_, tracks_start width send⟩, dispatches_start width send, closing_start width send⟩
    hallowed hrun
  obtain ⟨hpending, hworkers, hreaper⟩ := hclosing.closed hclosed
  refine ⟨?_, ?_⟩
  · intro i hadmitted
    have hgone : i ∉ s.pending := by simp [hpending]
    exact ⟨htracks.complete_of_admitted hadmitted hgone, hgone⟩
  · refine ⟨{ s with shutdown := true, closer := .closed }, ?_, rfl⟩
    simpa [step, closerStep, hclosed, hpending, hreaper] using hworkers

/-- A direct call admitted in the gap, which a worker completes before it leaves. -/
def lateCall : List Action :=
  [.closer .begin, .closer .drained, .reaper .endScan, .handler 0 (.admission 1 none .admitted),
    .closer .close, .reaper .exit, .worker 0 (.pop 0), .worker 0 (.call 0),
    .worker 0 (.called 0 (.returned true)), .worker 0 (.complete 0 200), .worker 0 (.erase 0),
    .worker 0 .exit, .closer .joined]

theorem shutdown_completes_lateCall :
    ∃ s, Machine.run step (start 1 fun _ => false) lateCall = some s ∧ s.Admitted 0 ∧
      (s.invocation 0).complete = true ∧ 0 ∉ s.pending := by
  obtain ⟨s, hrun⟩ := Option.isSome_iff_exists.mp
    (show (Machine.run step (start 1 fun _ => false) lateCall).isSome by decide)
  have hobserved : (Machine.run step (start 1 fun _ => false) lateCall).any
      (fun s => decide (s.closer = .closed) && decide (s.handler 0 = .waiting)) := by decide
  rw [hrun] at hobserved
  simp only [Option.any_some, Bool.and_eq_true, decide_eq_true_eq] at hobserved
  have hadmitted : s.Admitted 0 := by simp [Admitted, hobserved.2]
  obtain ⟨hcomplete, hgone⟩ :=
    (shutdown_completes 1 (fun _ => false) lateCall s hrun (by decide) hobserved.1).1 0 hadmitted
  exact ⟨s, hrun, hadmitted, hcomplete, hgone⟩

/-- An invocation to be sent that is admitted in the gap: the reaper has left before it is
sent. -/
def lateSend : List Action :=
  [.closer .begin, .closer .drained, .reaper .endScan, .handler 0 (.admission 1 none .admitted),
    .closer .close, .reaper .exit, .worker 0 (.pop 0), .worker 0 (.evaluate 0),
    .worker 0 (.evaluated 0 false), .worker 0 (.markSent 0), .worker 0 .exit, .closer .joined]

/-- The call is left behind, and the shutdown of the destructor cannot drain. -/
theorem lateSend_stranded :
    ∃ s, Machine.run step (start 1 fun _ => true) lateSend = some s ∧ s.closer = .closed ∧
      s.Admitted 0 ∧ (s.invocation 0).complete = false ∧ 0 ∈ s.pending ∧
      Machine.run step s [.closer .begin, .closer .drained] = none := by
  obtain ⟨s, hrun⟩ := Option.isSome_iff_exists.mp
    (show (Machine.run step (start 1 fun _ => true) lateSend).isSome by decide)
  have hobserved : (Machine.run step (start 1 fun _ => true) lateSend).any
      (fun s => decide (s.closer = .closed) && decide (s.handler 0 = .waiting) &&
        decide ((s.invocation 0).complete = false) && decide (0 ∈ s.pending)) := by decide
  rw [hrun] at hobserved
  simp only [Option.any_some, Bool.and_eq_true, decide_eq_true_eq] at hobserved
  obtain ⟨⟨⟨hclosed, hwaiting⟩, hopen⟩, hpending⟩ := hobserved
  refine ⟨s, hrun, hclosed, by simp [Admitted, hwaiting], hopen, hpending, ?_⟩
  have hsome : s.pending ≠ [] := List.ne_nil_of_mem hpending
  simp [step, closerStep, hclosed, hsome]

end RttHttp.Executor
