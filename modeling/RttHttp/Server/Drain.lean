import RttHttp.Server.Retention

/-! # Final drain

`finishShutdown` returns only when nothing that was ever admitted is left. The
order of the locks matters: admission is closed by `finalShutdown` before the
last executor is moved out, and `drain()` runs on executors that can no longer be
reached by a handler.
-/

namespace RttHttp.Server

open Executor (OperationExecutor)
open Executor.OperationExecutor (handlerStep_cases)

namespace Impl

variable {openssl : Bool} {send : Nat → Bool} {s next : Impl} {action : Action}

/-- Some executor, current or not, has admitted the invocation of handler `i`. -/
def HasAdmitted (i : Nat) (s : Impl) : Prop := ∃ executor ∈ s.executors, executor.Admitted i

theorem hasAdmitted_set {i ref : Nat} {old new : OperationExecutor} {action : Executor.Action}
    (h : HasAdmitted i s) (hget : s.executors[ref]? = some old)
    (hstep : old.step action = some new) (hexecutors : next.executors = s.executors.set ref new) :
    HasAdmitted i next := by
  obtain ⟨executor, hmem, hadmitted⟩ := h
  obtain ⟨other, hother⟩ := List.mem_iff_getElem?.mp hmem
  unfold HasAdmitted
  rw [hexecutors]
  by_cases hsame : ref = other
  · subst hsame
    obtain rfl : old = executor := Option.some.inj (hget.symm.trans hother)
    have hlt := (List.getElem?_eq_some_iff.mp hget).1
    exact ⟨new, List.mem_of_getElem? (by rw [List.getElem?_set_self hlt]), hadmitted.step hstep⟩
  · exact ⟨executor, List.mem_of_getElem? (by rw [List.getElem?_set_ne hsame]; exact hother),
      hadmitted⟩

/-- An admission is never forgotten. -/
theorem HasAdmitted.step {i : Nat} (h : HasAdmitted i s) (hstep : Step openssl send s action next) :
    HasAdmitted i next := by
  cases hstep with
  | start _ hpoint =>
      cases hpoint with
      | retire hget hbegin => exact hasAdmitted_set h hget hbegin rfl
      | executor =>
          obtain ⟨executor, hmem, hadmitted⟩ := h
          exact ⟨executor, List.mem_append_left _ hmem, hadmitted⟩
      | _ => exact h
  | stop _ hpoint => cases hpoint <;> exact h
  | finish _ hpoint =>
      cases hpoint with
      | retire hget hbegin => exact hasAdmitted_set h hget hbegin rfl
      | _ => exact h
  | run hrun => cases hrun <;> exact h
  | admission _ _ _ _ hget hadmission => exact hasAdmitted_set h hget hadmission rfl
  | executor _ hget hexecutor => exact hasAdmitted_set h hget hexecutor rfl
  | _ => exact h

theorem hasAdmitted_of_admission {i : Nat} {fault : Option Executor.AdmitFault}
    (hstep : s.step openssl send (.admission i fault .admitted) = some next) : HasAdmitted i next := by
  cases step_cases hstep with
  | @admission _ ref _ _ old new _ _ _ _ hget hadmission =>
      have hlt := (List.getElem?_eq_some_iff.mp hget).1
      refine ⟨new, List.mem_of_getElem? (List.getElem?_set_self hlt), ?_⟩
      cases handlerStep_cases hadmission
      simp [OperationExecutor.Admitted]

theorem hasAdmitted_of_run {i : Nat} {fault : Option Executor.AdmitFault} {actions : List Action}
    (hrun : Machine.run (step openssl send) initial actions = some s)
    (hmem : .admission i fault .admitted ∈ actions) : HasAdmitted i s := by
  obtain ⟨before, after, rfl⟩ := List.append_of_mem hmem
  obtain ⟨mid, next, -, hstep, hafter⟩ := Machine.run_split hrun
  exact Machine.run_invariant (fun _ _ _ h hstep => h.step (step_cases hstep))
    (hasAdmitted_of_admission hstep) hafter

/-- `start` moves an executor out only when it is empty. -/
theorem Stock.moved_out {c ref : Nat} {o : ServerOptions} {point : Starting}
    {executor : OperationExecutor} (h : s.Stock) (hl : s.Lifecycle)
    (hpc : s.callers c = .start o point) (hstep : StartStep openssl send s c o point next)
    (hcurrent : s.executor = some ref) (hmoved : next.executor ≠ some ref)
    (hget : s.executors[ref]? = some executor) : executor.pending = [] := by
  have hassert := hl.assertion c
  rw [hpc] at hassert
  cases hstep with
  | replace hexecutor hget' hwidth =>
      obtain rfl : _ = ref := Option.some.inj (hexecutor.symm.trans hcurrent)
      obtain rfl : _ = executor := Option.some.inj (hget'.symm.trans hget)
      rcases h.fits c o (.inr hpc) _ (current_eq_some.mpr ⟨_, hcurrent, hget⟩) with hsame | hempty
      · exact absurd hsame hwidth
      · exact hempty
  | executor =>
      rw [hassert.2.2] at hcurrent
      cases hcurrent
  | _ => exact absurd hcurrent hmoved

/-- The three parts of a complete drain, in a state reached by `actions`. -/
structure Drains (openssl : Bool) (send : Nat → Bool) (actions : List Action) (s : Impl) :
    Prop where
  /-- No `admit` succeeds after `finalShutdown` is set or while not running. -/
  admission : ∀ i fault next, s.step openssl send (.admission i fault .admitted) = some next →
    s.state = .running ∧ s.finalShutdown = false
  /-- `start` moves an executor out only when its `count()` is zero. -/
  moved : ∀ c o point fault next ref executor, s.callers c = .start o point →
    s.step openssl send (.caller c fault) = some next → s.executor = some ref →
    next.executor ≠ some ref → s.executors[ref]? = some executor → executor.count = 0
  /-- `start` shuts an executor down only when its `count()` is zero. -/
  shut : ∀ c o ref executor,
    s.callers c = .start o (.retire ref) ∨ s.callers c = .start o (.drain ref) →
    s.executors[ref]? = some executor → executor.count = 0
  /-- When `finishShutdown` returns, nothing that was ever admitted is left. -/
  drained : ∀ c fault next, s.callers c = .finish .returning →
    s.step openssl send (.caller c fault) = some next →
    (∀ executor ∈ next.executors, executor.pending = []) ∧
    ∀ i fault', .admission i fault' .admitted ∈ actions →
      ∃ executor ∈ next.executors, executor.Admitted i ∧
        (executor.invocation i).complete = true ∧ i ∉ executor.pending

/-- In every interleaving of handlers, callers, network threads and executors the
final drain is complete. -/
theorem final_drain (openssl : Bool) (send : Nat → Bool) (actions : List Action) (s : Impl)
    (hrun : Machine.run (step openssl send) initial actions = some s) :
    Drains openssl send actions s := by
  obtain ⟨hl, hstock⟩ := stock_of_run hrun
  refine ⟨?_, ?_, ?_, ?_⟩
  · intro i fault next hstep
    cases step_cases hstep with
    | admission hstate hopen => exact ⟨hstate, hopen⟩
  · intro c o point fault next ref executor hpc hstep hcurrent hmoved hget
    have hempty := hstock.moved_out hl hpc (startStep_of_caller hpc hstep) hcurrent hmoved hget
    simp [OperationExecutor.count, hempty]
  · intro c o ref executor hpc hget
    have hassert := hl.assertion c
    have hempty : executor.pending = [] := by
      refine hstock.pending_nil (c := c) hl ?_ ?_ hget ?_
      · rcases hpc with hpc | hpc <;> rw [hpc] <;> rfl
      · rcases hpc with hpc | hpc <;> rw [hpc] <;> exact id
      · rcases hpc with hpc | hpc <;> rw [hpc] at hassert <;> rw [hassert.2.2] <;> simp
    simp [OperationExecutor.count, hempty]
  · intro c fault next hpc hstep
    have hassert := hl.assertion c
    rw [hpc] at hassert
    have hexecutors : next.executors = s.executors := by
      cases finishStep_of_caller hpc hstep
      rfl
    rw [hexecutors]
    have hempty : ∀ executor ∈ s.executors, executor.pending = [] := by
      intro executor hmem
      obtain ⟨ref, hget⟩ := List.mem_iff_getElem?.mp hmem
      refine hstock.pending_nil (c := c) hl (by rw [hpc]; rfl) (by rw [hpc]; exact id) hget ?_
      rw [hassert.2]
      simp
    refine ⟨hempty, fun i fault' hmem => ?_⟩
    obtain ⟨executor, hexecutor, hadmitted⟩ := hasAdmitted_of_run hrun hmem
    obtain ⟨ref, hget⟩ := List.mem_iff_getElem?.mp hexecutor
    obtain ⟨g, htracks⟩ := (hstock.entry ref executor hget).tracked
    have hgone : i ∉ executor.pending := by
      rw [hempty executor hexecutor]
      exact List.not_mem_nil
    exact ⟨executor, hexecutor, hadmitted, htracks.complete_of_admitted hadmitted hgone, hgone⟩

/-- The last operation of an executor, and its `shutdown()`. -/
def lastOperation : List Executor.Action :=
  [.worker 0 (.pop 0), .worker 0 (.call 0), .worker 0 (.called 0 (.returned true)),
    .worker 0 (.complete 0 200), .worker 0 (.erase 0), .closer .drained, .closer .close,
    .worker 0 .exit, .reaper .endScan, .reaper .exit, .closer .joined]

/-- One admitted operation outlives the listener; `finishShutdown` waits for it. -/
def drainedRun : List Action := List.flatten
  [[.call 0 (.start { workerThreads := 1 })], List.replicate 10 (.caller 0 none),
    [.run 0 .bind, .run 0 .publishListener, .run 0 .watched, .run 0 .startHandler,
      .caller 0 none, .caller 0 none, .admission 0 none .admitted, .call 1 .finishShutdown],
    List.replicate 4 (.caller 1 none),
    [.run 0 (.listened true), .run 0 .clean, .run 0 .finish],
    List.replicate 5 (.caller 1 none), lastOperation.map (.executor 0),
    List.replicate 2 (.caller 1 none)]

theorem drainedRun_returning :
    (Machine.run (step true fun _ => false) initial drainedRun).map (fun s => s.callers 1) =
      some (.finish .returning) := by rfl

theorem final_drain_drainedRun :
    ∃ s next, Machine.run (step true fun _ => false) initial drainedRun = some s ∧
      s.step true (fun _ => false) (.caller 1 none) = some next ∧
      ∃ executor ∈ next.executors, executor.Admitted 0 ∧
        (executor.invocation 0).complete = true ∧ 0 ∉ executor.pending := by
  obtain ⟨s, hrun, hpc⟩ := Option.map_eq_some_iff.mp drainedRun_returning
  have hstep : s.step true (fun _ => false) (.caller 1 none) =
      some ({ s with control := none }.setCaller 1 .finished) := by
    simp only [step, callerStep, hpc, finishStep]
  have hmem : Action.admission 0 none .admitted ∈ drainedRun := by simp [drainedRun]
  have hdrains := final_drain true (fun _ => false) drainedRun s hrun
  exact ⟨s, _, hrun, hstep, (hdrains.drained 1 none _ hpc hstep).2 0 none hmem⟩

end Impl

end RttHttp.Server
