import RttHttp.Machine.Run

/-! # The operation executor as an interleaved machine

`OperationExecutor` shares two containers and per-invocation flags between its
worker threads, one reaper and the HTTP handlers. Each action below is one
mutex-protected section of the source, or the begin or end of a call into RTT
made outside every lock. Condition variables only decide when a thread looks
again, so waiting is the absence of a step. Clock values only decide when a
handler gives up, which is therefore always possible while it waits.

An invocation is identified with the handler that prepared it: every call of
`Server::Impl::handle` prepares at most one invocation and admits it at most once.
-/

namespace RttHttp.Executor

/-- The flags of `detail::Invocation`. `send` is the presence of a send data
source, chosen by `prepareInvocation` before admission. -/
structure Invocation where
  send : Bool
  sent : Bool := false
  complete : Bool := false
  status : Nat := 200
  deriving DecidableEq, Repr

/-- How `caller->call()` ends. -/
inductive CallOutcome where
  | returned (ready : Bool)
  | threwSendStatus
  | threw
  deriving DecidableEq, Repr

def CallOutcome.status : CallOutcome → Nat
  | .returned ready => if ready then 200 else 503
  | .threwSendStatus => 503
  | .threw => 500

/-- `RTT::SendStatus`, as far as the reaper distinguishes it. -/
inductive SendStatus where
  | sendSuccess
  | sendNotReady
  | sendFailure
  deriving DecidableEq, Repr

/-- How `collector->collectIfDone()` ends. -/
inductive CollectOutcome where
  | returned (status : SendStatus)
  | threw
  deriving DecidableEq, Repr

/-- The status the reaper passes to `finish` after reading `invocation->status`. -/
def reapStatus (result : Nat) (status : SendStatus) : Nat :=
  if result = 500 then 500 else if status = .sendSuccess then 200 else 503

/-- Program points of one `worker()` thread. -/
inductive Worker where
  | idle
  | holding (i : Nat)
  | calling (i : Nat)
  | evaluating (i : Nat)
  | caught (i : Nat)
  | sending (i : Nat)
  | finishing (i status : Nat)
  | erasing (i : Nat)
  | exited
  deriving DecidableEq, Repr

/-- Program points of the `reap()` thread. `index` is the scan position. -/
inductive Reaper where
  | scan (index : Nat)
  | picked (index i : Nat)
  | ready (index i : Nat)
  | collected (index i : Nat) (status : SendStatus)
  | finishing (index i status : Nat)
  | erasing (index i : Nat)
  | pausing
  | exited
  deriving DecidableEq, Repr

/-- Program points of a handler between `prepareInvocation` and its response. -/
inductive Handler where
  | prepared
  | refused
  | failed
  | waiting
  | gaveUp
  | responded (status : Nat)
  deriving DecidableEq, Repr

/-- Program points of the thread that calls `shutdown()`. -/
inductive Closer where
  | opened
  | draining
  | drained
  | joining
  | closed
  deriving DecidableEq, Repr

/-- The executor's members together with the program points of its threads. -/
structure OperationExecutor where
  width : Nat
  queue : List Nat
  pending : List Nat
  shutdown : Bool
  invocation : Nat → Invocation
  worker : Nat → Worker
  reaper : Reaper
  handler : Nat → Handler
  closer : Closer

namespace OperationExecutor

/-- A freshly constructed executor. `send i` says which path the invocation
that handler `i` is going to admit will take. -/
def start (width : Nat) (send : Nat → Bool) : OperationExecutor where
  width := width
  queue := []
  pending := []
  shutdown := false
  invocation := fun i => { send := send i }
  worker := fun _ => .idle
  reaper := .scan 0
  handler := fun _ => .prepared
  closer := .opened

/-- `count()`, with its cast to `std::uint32_t`. -/
def count (s : OperationExecutor) : Nat := s.pending.length % 2 ^ 32

@[simp] def setWorker (s : OperationExecutor) (w : Nat) (worker : Worker) : OperationExecutor :=
  { s with worker := Function.update s.worker w worker }

@[simp] def setHandler (s : OperationExecutor) (i : Nat) (handler : Handler) : OperationExecutor :=
  { s with handler := Function.update s.handler i handler }

@[simp] def setInvocation (s : OperationExecutor) (i : Nat) (value : Invocation) : OperationExecutor :=
  { s with invocation := Function.update s.invocation i value }

/-- First critical section of `finish`, under the invocation's mutex. -/
def finishComplete (s : OperationExecutor) (i status : Nat) : OperationExecutor :=
  s.setInvocation i { s.invocation i with status := status, complete := true }

/-- Second critical section of `finish`, under the executor's mutex:
`std::erase` removes every equal element. -/
def finishErase (s : OperationExecutor) (i : Nat) : OperationExecutor :=
  { s with pending := s.pending.filter (· ≠ i) }

end OperationExecutor

/-- An allocation failure inside `admit`. -/
inductive AdmitFault where
  | pendingPush
  | queuePush
  deriving DecidableEq, Repr

inductive AdmitResult where
  | admitted
  | refused
  | threw
  deriving DecidableEq, Repr

/-- `admit`, one section under the executor's mutex. A failed `queue_` insertion
takes the `pending_` entry back before it rethrows. -/
def admitInvocation (s : OperationExecutor) (i cap : Nat) (fault : Option AdmitFault) :
    AdmitResult × OperationExecutor :=
  if s.shutdown || s.pending.length ≥ cap then (.refused, s)
  else match fault with
    | some .pendingPush => (.threw, s)
    | some .queuePush => (.threw, { s with pending := (s.pending ++ [i]).dropLast })
    | none => (.admitted, { s with pending := s.pending ++ [i], queue := s.queue ++ [i] })

/-- What the handler does next with the result of `admit`. -/
def AdmitResult.handler : AdmitResult → Handler
  | .admitted => .waiting
  | .refused => .refused
  | .threw => .failed

inductive WorkerAction where
  | pop (i : Nat)
  | exit
  | call (i : Nat)
  | called (i : Nat) (outcome : CallOutcome)
  | resetThrew (i : Nat)
  | evaluate (i : Nat)
  | evaluated (i : Nat) (threw : Bool)
  | recordFailure (i : Nat)
  | markSent (i : Nat)
  | complete (i status : Nat)
  | erase (i : Nat)
  deriving DecidableEq, Repr

inductive ReaperAction where
  | pick (i : Nat)
  | endScan
  | check (i : Nat)
  | collect (i : Nat) (outcome : CollectOutcome)
  | readStatus (i : Nat)
  | complete (i status : Nat)
  | erase (i : Nat)
  | wait
  | exit
  deriving DecidableEq, Repr

inductive HandlerAction where
  | admission (cap : Nat) (fault : Option AdmitFault) (result : AdmitResult)
  | respond (status : Nat)
  | giveUp
  deriving DecidableEq, Repr

inductive CloserAction where
  | begin
  | drained
  | close
  | joined
  deriving DecidableEq, Repr

/-- One atomic step of one thread. -/
inductive Action where
  | worker (w : Nat) (action : WorkerAction)
  | reaper (action : ReaperAction)
  | handler (i : Nat) (action : HandlerAction)
  | closer (action : CloserAction)
  deriving DecidableEq, Repr

namespace OperationExecutor

/-- `OperationExecutor::worker`. -/
def workerStep (s : OperationExecutor) (w : Nat) (action : WorkerAction) :
    Option OperationExecutor :=
  if s.width ≤ w then none
  else match s.worker w, action with
    | .idle, .pop i =>
        match s.queue with
        | [] => none
        | front :: rest =>
            if front = i then some ({ s with queue := rest }.setWorker w (.holding i)) else none
    | .idle, .exit =>
        if s.shutdown && s.queue.isEmpty then some (s.setWorker w .exited) else none
    | .holding j, .call i =>
        if i = j ∧ (s.invocation i).send = false then some (s.setWorker w (.calling i)) else none
    | .calling j, .called i outcome =>
        if i = j then some (s.setWorker w (.finishing i outcome.status)) else none
    | .holding j, .resetThrew i =>
        if i = j ∧ (s.invocation i).send = true then some (s.setWorker w (.caught i)) else none
    | .holding j, .evaluate i =>
        if i = j ∧ (s.invocation i).send = true then some (s.setWorker w (.evaluating i)) else none
    | .evaluating j, .evaluated i threw =>
        if i = j then some (s.setWorker w (if threw then .caught i else .sending i)) else none
    | .caught j, .recordFailure i =>
        if i = j then
          some ((s.setInvocation i { s.invocation i with status := 500 }).setWorker w (.sending i))
        else none
    | .sending j, .markSent i =>
        if i = j then
          some ((s.setInvocation i { s.invocation i with sent := true }).setWorker w .idle)
        else none
    | .finishing j expected, .complete i status =>
        if i = j ∧ status = expected then
          some ((s.finishComplete i status).setWorker w (.erasing i))
        else none
    | .erasing j, .erase i =>
        if i = j then some ((s.finishErase i).setWorker w .idle) else none
    | _, _ => none

/-- `OperationExecutor::reap`. The scan never holds the mutex across two
elements, so `pending_` may change between two positions. -/
def reaperStep (s : OperationExecutor) (action : ReaperAction) : Option OperationExecutor :=
  match s.reaper, action with
  | .scan index, .pick i =>
      if s.pending[index]? = some i then some { s with reaper := .picked (index + 1) i } else none
  | .scan index, .endScan =>
      if s.pending.length ≤ index then some { s with reaper := .pausing } else none
  | .picked index j, .check i =>
      if i = j then
        if (s.invocation i).sent && !(s.invocation i).complete then
          some { s with reaper := .ready index i }
        else some { s with reaper := .scan index }
      else none
  | .ready index j, .collect i outcome =>
      if i = j then
        match outcome with
        | .returned .sendNotReady => some { s with reaper := .scan index }
        | .returned status => some { s with reaper := .collected index i status }
        | .threw => some { s with reaper := .finishing index i 500 }
      else none
  | .collected index j status, .readStatus i =>
      if i = j then
        some { s with reaper := .finishing index i (reapStatus (s.invocation i).status status) }
      else none
  | .finishing index j expected, .complete i status =>
      if i = j ∧ status = expected then
        some { s.finishComplete i status with reaper := .erasing index i }
      else none
  | .erasing index j, .erase i =>
      if i = j then some { s.finishErase i with reaper := .scan index } else none
  | .pausing, .wait => if s.shutdown then none else some { s with reaper := .scan 0 }
  | .pausing, .exit => if s.shutdown then some { s with reaper := .exited } else none
  | _, _ => none

/-- The part of `Server::Impl::handle` that touches the executor. The wait loop
tests `complete` and reads `status` under one hold of the invocation's mutex. -/
def handlerStep (s : OperationExecutor) (i : Nat) (action : HandlerAction) :
    Option OperationExecutor :=
  match s.handler i, action with
  | .prepared, .admission cap fault result =>
      if (Executor.admitInvocation s i cap fault).1 = result then
        some ((Executor.admitInvocation s i cap fault).2.setHandler i result.handler)
      else none
  | .waiting, .respond status =>
      if (s.invocation i).complete ∧ (s.invocation i).status = status then
        some (s.setHandler i (.responded status))
      else none
  | .waiting, .giveUp =>
      if (s.invocation i).complete then none else some (s.setHandler i .gaveUp)
  | _, _ => none

/-- `shutdown()`: `drain()`, then closing, then joining every thread. The
destructor calls it once more on a closed executor. -/
def closerStep (s : OperationExecutor) (action : CloserAction) : Option OperationExecutor :=
  match s.closer, action with
  | .opened, .begin => some { s with closer := .draining }
  | .closed, .begin => some { s with closer := .draining }
  | .draining, .drained => if s.pending.isEmpty then some { s with closer := .drained } else none
  | .drained, .close => some { s with shutdown := true, closer := .joining }
  | .joining, .joined =>
      if (List.range s.width).all (fun w => s.worker w = .exited) && s.reaper = .exited then
        some { s with closer := .closed }
      else none
  | _, _ => none

def step (s : OperationExecutor) : Action → Option OperationExecutor
  | .worker w action => s.workerStep w action
  | .reaper action => s.reaperStep action
  | .handler i action => s.handlerStep i action
  | .closer action => s.closerStep action

/-- The branches of `workerStep`, with everything they test. -/
inductive WorkerStep (s : OperationExecutor) (w : Nat) : WorkerAction → OperationExecutor → Prop
  | pop {i : Nat} {rest : List Nat} (hpc : s.worker w = .idle) (hqueue : s.queue = i :: rest) :
      WorkerStep s w (.pop i) ({ s with queue := rest }.setWorker w (.holding i))
  | exit (hpc : s.worker w = .idle) (hshutdown : s.shutdown) (hqueue : s.queue = []) :
      WorkerStep s w .exit (s.setWorker w .exited)
  | call {i : Nat} (hpc : s.worker w = .holding i) (hsend : (s.invocation i).send = false) :
      WorkerStep s w (.call i) (s.setWorker w (.calling i))
  | called {i : Nat} {outcome : CallOutcome} (hpc : s.worker w = .calling i) :
      WorkerStep s w (.called i outcome) (s.setWorker w (.finishing i outcome.status))
  | resetThrew {i : Nat} (hpc : s.worker w = .holding i) (hsend : (s.invocation i).send) :
      WorkerStep s w (.resetThrew i) (s.setWorker w (.caught i))
  | evaluate {i : Nat} (hpc : s.worker w = .holding i) (hsend : (s.invocation i).send) :
      WorkerStep s w (.evaluate i) (s.setWorker w (.evaluating i))
  | evaluated {i : Nat} {threw : Bool} (hpc : s.worker w = .evaluating i) :
      WorkerStep s w (.evaluated i threw)
        (s.setWorker w (if threw then .caught i else .sending i))
  | recordFailure {i : Nat} (hpc : s.worker w = .caught i) :
      WorkerStep s w (.recordFailure i)
        ((s.setInvocation i { s.invocation i with status := 500 }).setWorker w (.sending i))
  | markSent {i : Nat} (hpc : s.worker w = .sending i) :
      WorkerStep s w (.markSent i)
        ((s.setInvocation i { s.invocation i with sent := true }).setWorker w .idle)
  | complete {i status : Nat} (hpc : s.worker w = .finishing i status) :
      WorkerStep s w (.complete i status) ((s.finishComplete i status).setWorker w (.erasing i))
  | erase {i : Nat} (hpc : s.worker w = .erasing i) :
      WorkerStep s w (.erase i) ((s.finishErase i).setWorker w .idle)

theorem workerStep_cases {s next : OperationExecutor} {w : Nat} {action : WorkerAction}
    (hstep : s.workerStep w action = some next) : w < s.width ∧ WorkerStep s w action next := by
  revert hstep
  fun_cases workerStep s w action <;> simp only [Option.some.injEq, reduceCtorEq, false_implies]
  all_goals rintro rfl
  all_goals refine ⟨by omega, ?_⟩
  all_goals grind [WorkerStep]

/-- The branches of `reaperStep`. -/
inductive ReaperStep (s : OperationExecutor) : ReaperAction → OperationExecutor → Prop
  | pick {index i : Nat} (hpc : s.reaper = .scan index) (hpick : s.pending[index]? = some i) :
      ReaperStep s (.pick i) { s with reaper := .picked (index + 1) i }
  | endScan {index : Nat} (hpc : s.reaper = .scan index) (hend : s.pending.length ≤ index) :
      ReaperStep s .endScan { s with reaper := .pausing }
  | skip {index i : Nat} (hpc : s.reaper = .picked index i) :
      ReaperStep s (.check i) { s with reaper := .scan index }
  | check {index i : Nat} (hpc : s.reaper = .picked index i) (hsent : (s.invocation i).sent)
      (hopen : (s.invocation i).complete = false) :
      ReaperStep s (.check i) { s with reaper := .ready index i }
  | notReady {index i : Nat} (hpc : s.reaper = .ready index i) :
      ReaperStep s (.collect i (.returned .sendNotReady)) { s with reaper := .scan index }
  | collect {index i : Nat} {status : SendStatus} (hpc : s.reaper = .ready index i) :
      ReaperStep s (.collect i (.returned status)) { s with reaper := .collected index i status }
  | collectThrew {index i : Nat} (hpc : s.reaper = .ready index i) :
      ReaperStep s (.collect i .threw) { s with reaper := .finishing index i 500 }
  | readStatus {index i : Nat} {status : SendStatus} (hpc : s.reaper = .collected index i status) :
      ReaperStep s (.readStatus i)
        { s with reaper := .finishing index i (reapStatus (s.invocation i).status status) }
  | complete {index i status : Nat} (hpc : s.reaper = .finishing index i status) :
      ReaperStep s (.complete i status) { s.finishComplete i status with reaper := .erasing index i }
  | erase {index i : Nat} (hpc : s.reaper = .erasing index i) :
      ReaperStep s (.erase i) { s.finishErase i with reaper := .scan index }
  | wait (hpc : s.reaper = .pausing) (hshutdown : s.shutdown = false) :
      ReaperStep s .wait { s with reaper := .scan 0 }
  | exit (hpc : s.reaper = .pausing) (hshutdown : s.shutdown) :
      ReaperStep s .exit { s with reaper := .exited }

theorem reaperStep_cases {s next : OperationExecutor} {action : ReaperAction}
    (hstep : s.reaperStep action = some next) : ReaperStep s action next := by
  revert hstep
  fun_cases reaperStep s action <;> simp only [Option.some.injEq, reduceCtorEq, false_implies]
  all_goals rintro rfl
  all_goals grind [ReaperStep]

/-- The branches of `handlerStep`. -/
inductive HandlerStep (s : OperationExecutor) (i : Nat) :
    HandlerAction → OperationExecutor → Prop
  | admission {cap : Nat} (hpc : s.handler i = .prepared) (hopen : s.shutdown = false)
      (hcap : s.pending.length < cap) :
      HandlerStep s i (.admission cap none .admitted)
        ({ s with pending := s.pending ++ [i], queue := s.queue ++ [i] }.setHandler i .waiting)
  | refuse {cap : Nat} {fault : Option AdmitFault} (hpc : s.handler i = .prepared)
      (hrefuse : s.shutdown = true ∨ cap ≤ s.pending.length) :
      HandlerStep s i (.admission cap fault .refused) (s.setHandler i .refused)
  | admitThrew {cap : Nat} {fault : AdmitFault} (hpc : s.handler i = .prepared) :
      HandlerStep s i (.admission cap (some fault) .threw) (s.setHandler i .failed)
  | respond {status : Nat} (hpc : s.handler i = .waiting) (hcomplete : (s.invocation i).complete)
      (hstatus : (s.invocation i).status = status) :
      HandlerStep s i (.respond status) (s.setHandler i (.responded status))
  | giveUp (hpc : s.handler i = .waiting) (hopen : (s.invocation i).complete = false) :
      HandlerStep s i .giveUp (s.setHandler i .gaveUp)

/-- `admit` changes the containers only when it succeeds. -/
theorem admit_cases (s : OperationExecutor) (i cap : Nat) (fault : Option AdmitFault) :
    (admitInvocation s i cap fault = (.refused, s) ∧ (s.shutdown = true ∨ cap ≤ s.pending.length)) ∨
    (admitInvocation s i cap fault = (.threw, s) ∧ fault ≠ none) ∨
    (admitInvocation s i cap fault =
        (.admitted, { s with pending := s.pending ++ [i], queue := s.queue ++ [i] }) ∧
      fault = none ∧ s.shutdown = false ∧ s.pending.length < cap) := by
  unfold admitInvocation
  by_cases hrefuse : s.shutdown || decide (s.pending.length ≥ cap)
  · rw [if_pos hrefuse]
    exact Or.inl ⟨rfl, by simpa using hrefuse⟩
  · rw [if_neg hrefuse]
    simp only [Bool.or_eq_true, decide_eq_true_eq, not_or, Bool.not_eq_true] at hrefuse
    cases fault with
    | none => exact Or.inr (Or.inr ⟨rfl, rfl, hrefuse.1, by omega⟩)
    | some fault => cases fault <;> simp

theorem handlerStep_cases {s next : OperationExecutor} {i : Nat} {action : HandlerAction}
    (hstep : s.handlerStep i action = some next) : HandlerStep s i action next := by
  cases action with
  | admission cap fault result =>
      have hpc : s.handler i = .prepared := by
        by_contra hpc
        cases hhandler : s.handler i <;> simp_all [handlerStep]
      simp only [handlerStep, hpc, Option.ite_none_right_eq_some, Option.some.injEq] at hstep
      obtain ⟨rfl, rfl⟩ := hstep
      rcases admit_cases s i cap fault with ⟨heq, hrefuse⟩ | ⟨heq, hfault⟩ | ⟨heq, rfl, hopen, hcap⟩
      · rw [heq]
        exact .refuse hpc hrefuse
      · obtain ⟨fault, rfl⟩ := Option.ne_none_iff_exists'.mp hfault
        rw [heq]
        exact .admitThrew hpc
      · rw [heq]
        exact .admission hpc hopen hcap
  | respond status =>
      cases hpc : s.handler i <;> simp [handlerStep, hpc] at hstep
      obtain ⟨⟨hcomplete, hstatus⟩, rfl⟩ := hstep
      exact .respond hpc hcomplete hstatus
  | giveUp =>
      cases hpc : s.handler i <;> simp [handlerStep, hpc] at hstep
      obtain ⟨hopen, rfl⟩ := hstep
      exact .giveUp hpc hopen

/-- The branches of `closerStep`. -/
inductive CloserStep (s : OperationExecutor) : CloserAction → OperationExecutor → Prop
  | begin (hpc : s.closer = .opened ∨ s.closer = .closed) :
      CloserStep s .begin { s with closer := .draining }
  | drained (hpc : s.closer = .draining) (hempty : s.pending = []) :
      CloserStep s .drained { s with closer := .drained }
  | close (hpc : s.closer = .drained) :
      CloserStep s .close { s with shutdown := true, closer := .joining }
  | joined (hpc : s.closer = .joining) (hworkers : ∀ w < s.width, s.worker w = .exited)
      (hreaper : s.reaper = .exited) : CloserStep s .joined { s with closer := .closed }

theorem closerStep_cases {s next : OperationExecutor} {action : CloserAction}
    (hstep : s.closerStep action = some next) : CloserStep s action next := by
  revert hstep
  fun_cases closerStep s action <;> simp only [Option.some.injEq, reduceCtorEq, false_implies]
  all_goals rintro rfl
  all_goals grind [CloserStep]

section Effects

variable {s next : OperationExecutor} {action : Action}

theorem width_of_step (hstep : s.step action = some next) : next.width = s.width := by
  cases action with
  | worker w action => cases (workerStep_cases hstep).2 <;> rfl
  | reaper action => cases reaperStep_cases hstep <;> rfl
  | handler i action => cases handlerStep_cases hstep <;> rfl
  | closer action => cases closerStep_cases hstep <;> rfl

/-- `pending_` grows only by a successful admission below the given capacity. -/
theorem pending_of_step (hstep : s.step action = some next) :
    next.pending.Sublist s.pending ∨ ∃ i cap, action = .handler i (.admission cap none .admitted) ∧
      s.pending.length < cap ∧ next.pending = s.pending ++ [i] := by
  cases action with
  | worker w action =>
      cases (workerStep_cases hstep).2 <;> first
        | exact .inl (List.Sublist.refl _)
        | exact .inl List.filter_sublist
  | reaper action =>
      cases reaperStep_cases hstep <;> first
        | exact .inl (List.Sublist.refl _)
        | exact .inl List.filter_sublist
  | handler i action =>
      cases handlerStep_cases hstep with
      | admission _ _ hcap => exact .inr ⟨i, _, rfl, hcap, rfl⟩
      | _ => exact .inl (List.Sublist.refl _)
  | closer action => cases closerStep_cases hstep <;> exact .inl (List.Sublist.refl _)

/-- A handler's program point moves only by its own step. -/
theorem handler_of_step (hstep : s.step action = some next) (i : Nat) :
    next.handler i = s.handler i ∨ ∃ own, action = .handler i own := by
  cases action with
  | worker w action => cases (workerStep_cases hstep).2 <;> exact .inl rfl
  | reaper action => cases reaperStep_cases hstep <;> exact .inl rfl
  | handler j action =>
      by_cases hj : i = j
      · exact .inr ⟨action, by rw [hj]⟩
      · cases handlerStep_cases hstep <;> exact .inl (Function.update_of_ne hj _ _)
  | closer action => cases closerStep_cases hstep <;> exact .inl rfl

/-- `admit` has returned true for the invocation of handler `i`. -/
def Admitted (s : OperationExecutor) (i : Nat) : Prop :=
  match s.handler i with
  | .waiting | .gaveUp | .responded _ => True
  | .prepared | .refused | .failed => False

theorem Admitted.step {i : Nat} (h : s.Admitted i) (hstep : s.step action = some next) :
    next.Admitted i := by
  rcases handler_of_step hstep i with hsame | ⟨own, rfl⟩
  · rw [Admitted, hsame]
    exact h
  · cases handlerStep_cases hstep with
    | admission hpc | refuse hpc | admitThrew hpc => simp [Admitted, hpc] at h
    | respond | giveUp => simp [Admitted]

/-- Only the thread inside `shutdown()` moves its own program point. -/
theorem closer_of_step (hstep : s.step action = some next) :
    next.closer = s.closer ∨ ∃ own, action = .closer own := by
  cases action with
  | worker w action => cases (workerStep_cases hstep).2 <;> exact .inl rfl
  | reaper action => cases reaperStep_cases hstep <;> exact .inl rfl
  | handler i action => cases handlerStep_cases hstep <;> exact .inl rfl
  | closer action => exact .inr ⟨action, rfl⟩

end Effects

end OperationExecutor

end RttHttp.Executor
