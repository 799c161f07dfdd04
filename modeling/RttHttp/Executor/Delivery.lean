import RttHttp.Executor.Machine

/-! # What the threads know of a call

Whether the results of a call are there is known to the worker that called it directly, or
to the reaper that collected it, and they pass it on in the status. A call that completes
with 200 has delivered, whatever that means to those who wait for it.
-/

namespace RttHttp.Executor

/-- The statuses that an invocation can have. -/
def Ends (status : Nat) : Prop := status = 200 ∨ status = 500 ∨ status = 503

theorem CallOutcome.ends (outcome : CallOutcome) : Ends outcome.status := by
  cases outcome with
  | returned ready => cases ready <;> simp [status, Ends]
  | threwSendStatus => simp [status, Ends]
  | threw => simp [status, Ends]

theorem CallOutcome.returned_of_status {outcome : CallOutcome} (h : outcome.status = 200) :
    outcome = .returned true := by
  cases outcome with
  | returned ready =>
      cases ready with
      | true => rfl
      | false => simp [status] at h
  | threwSendStatus => simp [status] at h
  | threw => simp [status] at h

theorem ends_reapStatus (result : Nat) (status : SendStatus) : Ends (reapStatus result status) := by
  unfold reapStatus Ends
  split_ifs <;> simp

theorem success_of_reapStatus {result : Nat} {status : SendStatus}
    (h : reapStatus result status = 200) : status = .sendSuccess := by
  unfold reapStatus at h
  split at h
  next => cases h
  next =>
    split at h
    next hsuccess => exact hsuccess
    next => cases h

section Delivery

variable (send : Nat → Bool) (delivered : Nat → Prop)

/-- What a worker knows at its program point: which way it went, and how the call ended. -/
def Worker.Knows : Worker → Prop
  | .calling i => send i = false
  | .evaluating i | .caught i | .sending i => send i = true
  | .finishing i status => Ends status ∧ (status = 200 → delivered i)
  | .idle | .holding _ | .erasing _ | .exited => True

/-- What the reaper knows. -/
def Reaper.Knows : Reaper → Prop
  | .ready _ i => send i = true
  | .collected _ i status => status = .sendSuccess → delivered i
  | .finishing _ i status => Ends status ∧ (status = 200 → delivered i)
  | .scan _ | .picked _ _ | .erasing _ _ | .pausing | .exited => True

/-- What an invocation says of itself. -/
structure Invocation.Tells (i : Nat) (invocation : Invocation) : Prop where
  path : invocation.send = send i
  sent : invocation.sent = true → send i = true
  status : Ends invocation.status
  complete : invocation.complete = true → invocation.status = 200 → delivered i

/-- Everybody in the executor knows what was delivered. -/
structure OperationExecutor.Delivers (s : OperationExecutor) : Prop where
  worker : ∀ w, (s.worker w).Knows send delivered
  reaper : s.reaper.Knows send delivered
  invocation : ∀ i, (s.invocation i).Tells send delivered i

/-- The calls that an action reports as successful. -/
def Action.succeeds (i : Nat) : Action → Prop
  | .worker _ (.called j (.returned true)) | .reaper (.collect j (.returned .sendSuccess)) => j = i
  | _ => False

end Delivery

section Steps

variable {send : Nat → Bool} {delivered later : Nat → Prop} {s next : OperationExecutor}

theorem Worker.Knows.mono {worker : Worker} (h : worker.Knows send delivered)
    (hmore : ∀ i, delivered i → later i) : worker.Knows send later := by
  cases worker with
  | finishing i status => exact ⟨h.1, fun hstatus => hmore i (h.2 hstatus)⟩
  | idle | holding | erasing | exited => trivial
  | calling | evaluating | caught | sending => exact h

theorem Reaper.Knows.mono {reaper : Reaper} (h : reaper.Knows send delivered)
    (hmore : ∀ i, delivered i → later i) : reaper.Knows send later := by
  cases reaper with
  | collected index i status => exact fun hstatus => hmore i (h hstatus)
  | finishing index i status => exact ⟨h.1, fun hstatus => hmore i (h.2 hstatus)⟩
  | scan | picked | erasing | pausing | exited => trivial
  | ready => exact h

theorem Invocation.Tells.mono {i : Nat} {invocation : Invocation}
    (h : invocation.Tells send delivered i) (hmore : ∀ i, delivered i → later i) :
    invocation.Tells send later i :=
  ⟨h.path, h.sent, h.status, fun hcomplete hstatus => hmore i (h.complete hcomplete hstatus)⟩

theorem OperationExecutor.Delivers.mono (h : s.Delivers send delivered)
    (hmore : ∀ i, delivered i → later i) : s.Delivers send later :=
  ⟨fun w => (h.worker w).mono hmore, h.reaper.mono hmore, fun i => (h.invocation i).mono hmore⟩

/-- A worker moves on, and one invocation changes. -/
theorem OperationExecutor.Delivers.work (h : s.Delivers send delivered) {w i : Nat}
    {worker : Worker} {invocation : Invocation} (hworker : worker.Knows send delivered)
    (hinvocation : invocation.Tells send delivered i) :
    ((s.setInvocation i invocation).setWorker w worker).Delivers send delivered := by
  refine ⟨fun v => ?_, h.reaper, fun j => ?_⟩
  · by_cases hv : v = w
    · subst hv
      simpa using hworker
    · simpa [Function.update_of_ne hv] using h.worker v
  · by_cases hj : j = i
    · subst hj
      simpa using hinvocation
    · simpa [Function.update_of_ne hj] using h.invocation j

/-- A worker moves on by itself. -/
theorem OperationExecutor.Delivers.setWorker (h : s.Delivers send delivered) {w : Nat}
    {worker : Worker} (hworker : worker.Knows send delivered) :
    (s.setWorker w worker).Delivers send delivered := by
  simpa using h.work (w := w) hworker (h.invocation 0)

theorem OperationExecutor.Delivers.workerStep (h : s.Delivers send delivered) {w : Nat}
    {action : WorkerAction}
    (hsucceeds : ∀ i, Action.succeeds i (.worker w action) → delivered i)
    (hstep : s.workerStep w action = some next) : next.Delivers send delivered := by
  obtain ⟨-, hcases⟩ := OperationExecutor.workerStep_cases hstep
  have hknows := h.worker w
  cases hcases with
  | @pop i rest hpc hqueue =>
      have hrest : ({ s with queue := rest } : OperationExecutor).Delivers send delivered :=
        ⟨h.worker, h.reaper, h.invocation⟩
      have hholding : (Worker.holding i).Knows send delivered := trivial
      exact hrest.setWorker hholding
  | exit hpc =>
      have hexited : Worker.exited.Knows send delivered := trivial
      exact h.setWorker hexited
  | @call i hpc hsend => exact h.setWorker ((h.invocation i).path.symm.trans hsend)
  | @called i outcome hpc =>
      refine h.setWorker ⟨outcome.ends, fun hstatus => hsucceeds i ?_⟩
      rw [CallOutcome.returned_of_status hstatus]
      rfl
  | @resetThrew i hpc hsend => exact h.setWorker ((h.invocation i).path.symm.trans hsend)
  | @evaluate i hpc hsend => exact h.setWorker ((h.invocation i).path.symm.trans hsend)
  | @evaluated i threw hpc =>
      rw [hpc] at hknows
      cases threw <;> exact h.setWorker hknows
  | @recordFailure i hpc =>
      rw [hpc] at hknows
      have htells := h.invocation i
      exact h.work hknows ⟨htells.path, htells.sent, .inr (.inl rfl), nofun⟩
  | @markSent i hpc =>
      rw [hpc] at hknows
      have htells := h.invocation i
      exact h.work trivial ⟨htells.path, fun _ => hknows, htells.status, htells.complete⟩
  | @complete i status hpc =>
      rw [hpc] at hknows
      have htells := h.invocation i
      exact h.work trivial ⟨htells.path, htells.sent, hknows.1, fun _ => hknows.2⟩
  | @erase i hpc =>
      have herased : (s.finishErase i).Delivers send delivered :=
        ⟨h.worker, h.reaper, h.invocation⟩
      have hidle : Worker.idle.Knows send delivered := trivial
      exact herased.setWorker hidle

theorem OperationExecutor.Delivers.reaperStep (h : s.Delivers send delivered)
    {action : ReaperAction} (hsucceeds : ∀ i, Action.succeeds i (.reaper action) → delivered i)
    (hstep : s.reaperStep action = some next) : next.Delivers send delivered := by
  have hknows := h.reaper
  cases OperationExecutor.reaperStep_cases hstep with
  | pick | endScan | skip | notReady | wait | exit => exact ⟨h.worker, trivial, h.invocation⟩
  | @check index i hpc hsent => exact ⟨h.worker, (h.invocation i).sent hsent, h.invocation⟩
  | @collect index i status hpc =>
      refine ⟨h.worker, fun hstatus => hsucceeds i ?_, h.invocation⟩
      rw [hstatus]
      rfl
  | collectThrew hpc => exact ⟨h.worker, ⟨.inr (.inl rfl), nofun⟩, h.invocation⟩
  | @readStatus index i status hpc =>
      rw [hpc] at hknows
      exact ⟨h.worker, ⟨ends_reapStatus _ status, fun hstatus => hknows (success_of_reapStatus hstatus)⟩,
        h.invocation⟩
  | @complete index i status hpc =>
      rw [hpc] at hknows
      have htells := h.invocation i
      refine ⟨h.worker, trivial, fun j => ?_⟩
      by_cases hj : j = i
      · subst hj
        have hdone : Invocation.Tells send delivered j
            { s.invocation j with status := status, complete := true } :=
          ⟨htells.path, htells.sent, hknows.1, fun _ => hknows.2⟩
        simpa [OperationExecutor.finishComplete] using hdone
      · simpa [OperationExecutor.finishComplete, Function.update_of_ne hj] using h.invocation j
  | erase hpc => exact ⟨h.worker, trivial, h.invocation⟩

/-- The step lemma: every action keeps what is known, if what it reports as successful has
been delivered. -/
theorem OperationExecutor.Delivers.step (h : s.Delivers send delivered) {action : Action}
    (hsucceeds : ∀ i, action.succeeds i → delivered i) (hstep : s.step action = some next) :
    next.Delivers send delivered := by
  cases action with
  | worker w action => exact h.workerStep hsucceeds hstep
  | reaper action => exact h.reaperStep hsucceeds hstep
  | handler i action =>
      cases OperationExecutor.handlerStep_cases hstep <;> exact ⟨h.worker, h.reaper, h.invocation⟩
  | closer action =>
      cases OperationExecutor.closerStep_cases hstep <;> exact ⟨h.worker, h.reaper, h.invocation⟩

theorem OperationExecutor.delivers_start (width : Nat) (send : Nat → Bool) (delivered : Nat → Prop) :
    (OperationExecutor.start width send).Delivers send delivered :=
  ⟨fun _ => trivial, trivial, fun _ => ⟨rfl, nofun, .inl rfl, nofun⟩⟩

end Steps

end RttHttp.Executor
