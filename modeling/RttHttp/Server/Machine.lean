import RttHttp.Executor.Machine
import RttHttp.Server.Options

/-! # The server lifecycle as an interleaved machine

Any number of caller threads use the public interface of `Server`; each start
spawns one network thread that executes `Impl::run`; HTTP handlers admit
invocations; and every executor ever created keeps running its own threads.
An action is one section under `Impl::mutex`, one acquisition or release of
`Impl::control`, one join, or one step inside an executor. Steps of foreign code
that may fail carry the exception as an argument. `run` catches all of them, `start`
only what derives from `std::exception`; of its sections the one that makes the
catalog and the model calls foreign code, and may throw anything else.

Handlers are not tied to a listener here: they may act whenever the checks in
the source let them, which includes every behaviour in which joining the network
thread ends all handlers of its listener.
-/

namespace RttHttp.Server

open Executor (OperationExecutor)

/-- An exception: a `std::exception` with its `what()`, or anything else. -/
inductive Failure where
  | exception (what : String)
  | other
  deriving DecidableEq, Repr

/-- `Impl::State`. -/
inductive State where
  | stopped
  | starting
  | running
  | stopping
  deriving DecidableEq, Repr

/-- The result of `start`: success or the text left in `*error`. -/
abbrev Result := Except String Unit

/-- Program points of `Server::start`. -/
inductive Starting where
  | control
  | guard
  | join
  | validate
  | install
  | model
  | replace
  | retire (old : Nat)
  | drain (old : Nat)
  | executor
  | bind
  | thread
  | wait
  | failed (message : String)
  | returning (result : Result)

/-- Program points of `Server::stop`. -/
inductive Stopping where
  | request
  | control
  | again
  | join
  | joined

/-- Program points of `Server::finishShutdown` after its call of `stop`. -/
inductive Finishing where
  | control
  | move
  | retire (old : Nat)
  | drain (old : Nat)
  | model
  | returning

/-- What a thread that uses `Server` is executing. The flag `final` tells whether
`beginShutdown` or `stop` was called by `finishShutdown`. A call of `start` has
`escaped` when an exception left it. -/
inductive Caller where
  | idle
  | start (o : ServerOptions) (point : Starting)
  | requesting
  | stop (final : Bool) (point : Stopping)
  | beginning (final : Bool)
  | finish (point : Finishing)
  | started (result : Result)
  | escaped
  | finished

/-- Before a call, and when it has returned or an exception has left it. -/
def Caller.returned : Caller → Bool
  | .idle | .started _ | .escaped | .finished => true
  | _ => false

/-- Program points of one activation of `Impl::run`. -/
inductive Run where
  | setup
  | bound
  | watch
  | listen
  | unlistened
  | caught (message : String)
  | cleanup
  | reset
  | ended
  deriving DecidableEq, Repr

/-- The members of `Impl` that control flow depends on, with the program points
of all threads. `network` is the activation that the `std::thread` member refers
to while it is joinable; `runs` has every activation ever spawned. -/
structure Impl where
  control : Option Nat
  state : State
  finalShutdown : Bool
  networkDone : Bool
  graceExpired : Bool
  options : ServerOptions
  error : String
  model : Option Nat
  models : Nat
  executor : Option Nat
  executors : List OperationExecutor
  listener : Bool
  network : Option Nat
  runs : Nat → Run
  spawned : Nat
  callers : Nat → Caller

/-- A newly constructed server. -/
def Impl.initial : Impl where
  control := none
  state := .stopped
  finalShutdown := false
  networkDone := true
  graceExpired := false
  options := {}
  error := ""
  model := none
  models := 0
  executor := none
  executors := []
  listener := false
  network := none
  runs := fun _ => .ended
  spawned := 0
  callers := fun _ => .idle

/-- The public operations a caller may begin. -/
inductive Operation where
  | start (o : ServerOptions)
  | requestStop
  | stop
  | beginShutdown
  | finishShutdown

def Operation.entry : Operation → Caller
  | .start o => .start o .control
  | .requestStop => .requesting
  | .stop => .stop false .request
  | .beginShutdown => .beginning false
  | .finishShutdown => .beginning true

/-- What happens next on a network thread. -/
inductive RunAction where
  | bind
  | failed (message : String)
  | publishListener
  | watched
  | startHandler
  | poolShutdown
  | listened (ok : Bool)
  | recordFailure
  | catchFailure
  | clean
  | finish
  deriving DecidableEq, Repr

inductive Action where
  | call (c : Nat) (operation : Operation)
  | caller (c : Nat) (fault : Option Failure)
  | run (k : Nat) (action : RunAction)
  | graceExpire
  | admission (i : Nat) (fault : Option Executor.AdmitFault) (result : Executor.AdmitResult)
  | executor (ref : Nat) (action : Executor.Action)

namespace Impl

/-- `Impl::requestStopLocked`, which returns early when it finds `stopped` or
`stopping`. -/
def requestStopLocked (s : Impl) : Impl :=
  { s with state := if s.state = .stopped ∨ s.state = .stopping then s.state else .stopping }

@[simp] def setCaller (s : Impl) (c : Nat) (caller : Caller) : Impl :=
  { s with callers := Function.update s.callers c caller }

@[simp] def setRun (s : Impl) (k : Nat) (run : Run) : Impl :=
  { s with runs := Function.update s.runs k run }

/-- The executor that `Impl::executor` points to. -/
def current (s : Impl) : Option OperationExecutor := s.executor.bind (s.executors[·]?)

/-- Operations left over from earlier listeners do not fit the new options. -/
def retainedError (s : Impl) (o : ServerOptions) : Option String :=
  match s.current with
  | none => none
  | some executor =>
      if o.maxPendingOperations.toNat < executor.count then
        some "maxPendingOperations is below retained HTTP operation count"
      else if executor.count ≠ 0 ∧ o.workerThreads.toNat ≠ executor.width then
        some "workerThreads cannot change while HTTP operations remain unfinished"
      else none

/-- Join `network` when it is joinable; blocked while that thread runs. -/
def joinNetwork (s : Impl) : Option Impl :=
  match s.network with
  | none => some s
  | some k => if s.runs k = .ended then some { s with network := none } else none

/-- One step of one of the executors. -/
def executorStep (s : Impl) (ref : Nat) (action : Executor.Action) : Option Impl :=
  match s.executors[ref]? with
  | none => none
  | some executor => (executor.step action).map fun next =>
      { s with executors := s.executors.set ref next }

/-- `shutdown()` has returned on a moved-out executor. -/
def retired (s : Impl) (ref : Nat) : Bool :=
  match s.executors[ref]? with
  | some executor => executor.closer == .closed
  | none => false

/-- `Server::start`. `fault` is an exception thrown by the code of that section. -/
def startStep (openssl : Bool) (send : Nat → Bool) (s : Impl) (c : Nat) (o : ServerOptions)
    (point : Starting) (fault : Option Failure) : Option Impl :=
  match point, fault with
  | .control, none =>
      if s.control = none then some ({ s with control := some c }.setCaller c (.start o .guard))
      else none
  | .guard, none =>
      if s.finalShutdown then
        some (s.setCaller c (.start o (.returning (.error "HTTP deployment is shutting down"))))
      else if s.state = .running then some (s.setCaller c (.start o (.returning (.ok ()))))
      else if s.state ≠ .stopped then
        some (s.setCaller c (.start o (.returning (.error "HTTP network cleanup is not complete"))))
      else some (s.setCaller c (.start o .join))
  | .join, none => s.joinNetwork.map (·.setCaller c (.start o .validate))
  | .validate, none =>
      match validateOptions openssl o with
      | .error message => some (s.setCaller c (.start o (.returning (.error message))))
      | .ok () => some (s.setCaller c (.start o .install))
  | .install, none =>
      match s.retainedError o with
      | some message => some (s.setCaller c (.start o (.returning (.error message))))
      | none =>
          some ({ s with
            options := o, error := "", state := .starting, graceExpired := false }.setCaller c
              (.start o .model))
  | .model, fault =>
      if s.model.isSome then
        if fault = none then some (s.setCaller c (.start o .replace)) else none
      else match fault with
        | none =>
            some ({ s with model := some s.models, models := s.models + 1 }.setCaller c
              (.start o .replace))
        | some (.exception message) => some (s.setCaller c (.start o (.failed message)))
        -- No handler: the guard of `control` is destroyed, `state` is left as it is.
        | some .other => some ({ s with control := none }.setCaller c .escaped)
  | .replace, none =>
      match s.executor with
      | none => some (s.setCaller c (.start o .executor))
      | some ref =>
          match s.executors[ref]? with
          | none => none
          | some executor =>
              if executor.width = o.workerThreads.toNat then some (s.setCaller c (.start o .bind))
              else some ({ s with executor := none }.setCaller c (.start o (.retire ref)))
  | .retire ref, none =>
      (s.executorStep ref (.closer .begin)).map (·.setCaller c (.start o (.drain ref)))
  | .drain ref, none => if s.retired ref then some (s.setCaller c (.start o .executor)) else none
  | .executor, none =>
      some ({ s with
        executor := some s.executors.length
        executors := s.executors ++
          [OperationExecutor.start o.workerThreads.toNat send] }.setCaller c (.start o .bind))
  | .executor, some (.exception message) => some (s.setCaller c (.start o (.failed message)))
  | .bind, fault =>
      if s.state ≠ .starting ∨ s.finalShutdown then
        if fault = none then
          some ({ s with state := .stopped }.setCaller c
            (.start o (.returning (.error "HTTP start was stopped before binding"))))
        else none
      else match fault with
        | none => some ({ s with networkDone := false }.setCaller c (.start o .thread))
        | some (.exception message) => some (s.setCaller c (.start o (.failed message)))
        | some .other => none
  | .thread, none =>
      some (({ s with network := some s.spawned, spawned := s.spawned + 1 }.setRun s.spawned
        .setup).setCaller c (.start o .wait))
  | .thread, some (.exception message) => some (s.setCaller c (.start o (.failed message)))
  | .wait, none =>
      if s.state = .running then some (s.setCaller c (.start o (.returning (.ok ()))))
      else if s.state = .stopped then
        some (s.setCaller c (.start o (.returning (.error
          (if s.error = "" then "HTTP startup was interrupted" else s.error)))))
      else none
  | .failed message, none =>
      some ({ s with state := .stopped, networkDone := true }.setCaller c
        (.start o (.returning (.error message))))
  | .returning result, none => some ({ s with control := none }.setCaller c (.started result))
  | _, some _ => none

/-- `Server::stop`. -/
def stopStep (s : Impl) (c : Nat) (final : Bool) : Stopping → Option Impl
  | .request => some (s.requestStopLocked.setCaller c (.stop final .control))
  | .control =>
      if s.control = none then some ({ s with control := some c }.setCaller c (.stop final .again))
      else none
  | .again => some (s.requestStopLocked.setCaller c (.stop final .join))
  | .join => s.joinNetwork.map (·.setCaller c (.stop final .joined))
  | .joined =>
      some ({ s with control := none }.setCaller c
        (if final then .finish .control else .finished))

/-- `Server::finishShutdown`, after `beginShutdown` and `stop`. -/
def finishStep (s : Impl) (c : Nat) : Finishing → Option Impl
  | .control =>
      if s.control = none then some ({ s with control := some c }.setCaller c (.finish .move))
      else none
  | .move =>
      match s.executor with
      | none => some (s.setCaller c (.finish .model))
      | some ref => some ({ s with executor := none }.setCaller c (.finish (.retire ref)))
  | .retire ref =>
      (s.executorStep ref (.closer .begin)).map (·.setCaller c (.finish (.drain ref)))
  | .drain ref => if s.retired ref then some (s.setCaller c (.finish .model)) else none
  | .model => some ({ s with model := none }.setCaller c (.finish .returning))
  | .returning => some ({ s with control := none }.setCaller c .finished)

/-- One section of a caller thread; outside `start` none throws. -/
def callerStep (openssl : Bool) (send : Nat → Bool) (s : Impl) (c : Nat)
    (fault : Option Failure) : Option Impl :=
  match s.callers c, fault with
  | .start o point, fault => s.startStep openssl send c o point fault
  | .requesting, none => some (s.requestStopLocked.setCaller c .finished)
  | .stop final point, none => s.stopStep c final point
  | .beginning final, none =>
      some ({ s with finalShutdown := true }.requestStopLocked.setCaller c
        (if final then .stop true .request else .finished))
  | .finish point, none => s.finishStep c point
  | _, _ => none

/-- `Impl::run`. While `listen_after_bind` is active, cpp-httplib calls the start
handler and the pool's shutdown callback. -/
def runStep (s : Impl) (k : Nat) (action : RunAction) : Option Impl :=
  match s.runs k, action with
  | .setup, .bind => some (s.setRun k .bound)
  | .setup, .failed message => some (s.setRun k (.caught message))
  | .bound, .publishListener => some ({ s with listener := true }.setRun k .watch)
  | .watch, .watched => some (s.setRun k .listen)
  | .watch, .failed message => some (s.setRun k (.caught message))
  | .listen, .startHandler =>
      if s.state = .starting ∧ s.finalShutdown = false then some { s with state := .running }
      else some s
  | .listen, .poolShutdown => some s.requestStopLocked
  | .listen, .listened ok => some (s.setRun k (if ok then .cleanup else .unlistened))
  | .listen, .failed message => some (s.setRun k (.caught message))
  | .unlistened, .recordFailure =>
      some ({ s with error := "HTTP listener failed during startup or serving" }.setRun k .cleanup)
  | .caught message, .catchFailure =>
      some ({ s with error := message }.requestStopLocked.setRun k .cleanup)
  | .cleanup, .clean => some ({ s with listener := false, networkDone := true }.setRun k .reset)
  | .reset, .finish => some ({ s with state := .stopped }.setRun k .ended)
  | _, _ => none

/-- The admission boundary of `Impl::handle`: the lifecycle check and `admit`
happen under one hold of `Impl::mutex`. A handler admits its invocation once. -/
def admitStep (s : Impl) (i : Nat) (fault : Option Executor.AdmitFault)
    (result : Executor.AdmitResult) : Option Impl :=
  if s.state ≠ .running ∨ s.finalShutdown ∨
      s.executors.any (fun executor => executor.handler i ≠ .prepared) then none
  else s.executor.bind fun ref =>
    s.executorStep ref (.handler i (.admission s.options.maxPendingOperations.toNat fault result))

/-- Steps an executor takes on its own: its threads, waiting handlers, and the
rest of a `shutdown()` that a caller has begun. -/
def internal : Executor.Action → Bool
  | .worker _ _ | .reaper _ => true
  | .handler _ (.admission _ _ _) => false
  | .handler _ _ => true
  | .closer .begin => false
  | .closer _ => true

def step (openssl : Bool) (send : Nat → Bool) (s : Impl) : Action → Option Impl
  | .call c operation =>
      if (s.callers c).returned then some (s.setCaller c operation.entry) else none
  | .caller c fault => s.callerStep openssl send c fault
  | .run k action => s.runStep k action
  -- Server::Impl::watchGrace
  | .graceExpire =>
      if s.networkDone = false ∧ s.state = .stopping then some { s with graceExpired := true }
      else none
  | .admission i fault result => s.admitStep i fault result
  | .executor ref action => if internal action then s.executorStep ref action else none

/-- The branches of `joinNetwork`: the thread object is not joinable afterwards,
and the thread it referred to has ended. -/
theorem joinNetwork_cases {s next : Impl} (hjoin : s.joinNetwork = some next) :
    next = { s with network := none } ∧ ∀ k, s.network = some k → s.runs k = .ended := by
  unfold joinNetwork at hjoin
  cases hnetwork : s.network with
  | none =>
      rw [hnetwork] at hjoin
      cases hjoin
      cases s
      simp_all
  | some k =>
      simp only [hnetwork, Option.ite_none_right_eq_some, Option.some.injEq] at hjoin
      obtain ⟨hended, rfl⟩ := hjoin
      simp [hended]

theorem executorStep_cases {s next : Impl} {ref : Nat} {action : Executor.Action}
    (hstep : s.executorStep ref action = some next) :
    ∃ old new, s.executors[ref]? = some old ∧ old.step action = some new ∧
      next = { s with executors := s.executors.set ref new } := by
  unfold executorStep at hstep
  cases hold : s.executors[ref]? with
  | none => simp [hold] at hstep
  | some old =>
      simp only [hold, Option.map_eq_some_iff] at hstep
      obtain ⟨new, hnew, rfl⟩ := hstep
      exact ⟨old, new, rfl, hnew, rfl⟩

theorem retired_iff (s : Impl) (ref : Nat) :
    s.retired ref = true ↔ ∃ executor, s.executors[ref]? = some executor ∧
      executor.closer = .closed := by
  unfold retired
  cases s.executors[ref]? <;> simp

/-- The branches of `startStep`. -/
inductive StartStep (openssl : Bool) (send : Nat → Bool) (s : Impl) (c : Nat)
    (o : ServerOptions) : Starting → Impl → Prop
  | control (hfree : s.control = none) :
      StartStep openssl send s c o .control
        ({ s with control := some c }.setCaller c (.start o .guard))
  | guardError {message : String} (hstate : s.finalShutdown = true ∨ s.state ≠ .stopped) :
      StartStep openssl send s c o .guard (s.setCaller c (.start o (.returning (.error message))))
  | guardRunning (hopen : s.finalShutdown = false) (hstate : s.state = .running) :
      StartStep openssl send s c o .guard (s.setCaller c (.start o (.returning (.ok ()))))
  | guard (hopen : s.finalShutdown = false) (hstate : s.state = .stopped) :
      StartStep openssl send s c o .guard (s.setCaller c (.start o .join))
  | join (hended : ∀ k, s.network = some k → s.runs k = .ended) :
      StartStep openssl send s c o .join
        ({ s with network := none }.setCaller c (.start o .validate))
  | invalid {message : String} (hinvalid : validateOptions openssl o = .error message) :
      StartStep openssl send s c o .validate (s.setCaller c (.start o (.returning (.error message))))
  | validate (hvalid : validateOptions openssl o = .ok ()) :
      StartStep openssl send s c o .validate (s.setCaller c (.start o .install))
  | conflict {message : String} (hretained : s.retainedError o = some message) :
      StartStep openssl send s c o .install (s.setCaller c (.start o (.returning (.error message))))
  | install (hretained : s.retainedError o = none) :
      StartStep openssl send s c o .install
        ({ s with
          options := o, error := "", state := .starting, graceExpired := false }.setCaller c
            (.start o .model))
  | keepModel (hmodel : s.model.isSome) :
      StartStep openssl send s c o .model (s.setCaller c (.start o .replace))
  | model (hmodel : s.model = none) :
      StartStep openssl send s c o .model
        ({ s with model := some s.models, models := s.models + 1 }.setCaller c (.start o .replace))
  | failure {point : Starting} {message : String}
      (hpoint : point = .model ∨ point = .executor ∨ point = .bind ∨ point = .thread) :
      StartStep openssl send s c o point (s.setCaller c (.start o (.failed message)))
  | escape (hmodel : s.model = none) :
      StartStep openssl send s c o .model ({ s with control := none }.setCaller c .escaped)
  | noExecutor (hexecutor : s.executor = none) :
      StartStep openssl send s c o .replace (s.setCaller c (.start o .executor))
  | keepExecutor {ref : Nat} {executor : OperationExecutor} (hexecutor : s.executor = some ref)
      (hget : s.executors[ref]? = some executor) (hwidth : executor.width = o.workerThreads.toNat) :
      StartStep openssl send s c o .replace (s.setCaller c (.start o .bind))
  | replace {ref : Nat} {executor : OperationExecutor} (hexecutor : s.executor = some ref)
      (hget : s.executors[ref]? = some executor) (hwidth : executor.width ≠ o.workerThreads.toNat) :
      StartStep openssl send s c o .replace
        ({ s with executor := none }.setCaller c (.start o (.retire ref)))
  | retire {ref : Nat} {old new : OperationExecutor} (hget : s.executors[ref]? = some old)
      (hbegin : old.step (.closer .begin) = some new) :
      StartStep openssl send s c o (.retire ref)
        ({ s with executors := s.executors.set ref new }.setCaller c (.start o (.drain ref)))
  | drain {ref : Nat} {old : OperationExecutor} (hget : s.executors[ref]? = some old)
      (hclosed : old.closer = .closed) :
      StartStep openssl send s c o (.drain ref) (s.setCaller c (.start o .executor))
  | executor :
      StartStep openssl send s c o .executor
        ({ s with
          executor := some s.executors.length
          executors := s.executors ++
            [OperationExecutor.start o.workerThreads.toNat send] }.setCaller c (.start o .bind))
  | stopped {message : String} (hstate : s.state ≠ .starting ∨ s.finalShutdown = true) :
      StartStep openssl send s c o .bind
        ({ s with state := .stopped }.setCaller c (.start o (.returning (.error message))))
  | bind (hstate : s.state = .starting) (hopen : s.finalShutdown = false) :
      StartStep openssl send s c o .bind
        ({ s with networkDone := false }.setCaller c (.start o .thread))
  | thread :
      StartStep openssl send s c o .thread
        (({ s with network := some s.spawned, spawned := s.spawned + 1 }.setRun s.spawned
          .setup).setCaller c (.start o .wait))
  | running (hstate : s.state = .running) :
      StartStep openssl send s c o .wait (s.setCaller c (.start o (.returning (.ok ()))))
  | interrupted {message : String} (hstate : s.state = .stopped) :
      StartStep openssl send s c o .wait (s.setCaller c (.start o (.returning (.error message))))
  | failed {message : String} :
      StartStep openssl send s c o (.failed message)
        ({ s with state := .stopped, networkDone := true }.setCaller c
          (.start o (.returning (.error message))))
  | returning {result : Result} :
      StartStep openssl send s c o (.returning result)
        ({ s with control := none }.setCaller c (.started result))

theorem startStep_cases {openssl : Bool} {send : Nat → Bool} {s next : Impl} {c : Nat}
    {o : ServerOptions} {point : Starting} {fault : Option Failure}
    (hstep : s.startStep openssl send c o point fault = some next) :
    StartStep openssl send s c o point next := by
  revert hstep
  fun_cases startStep openssl send s c o point fault <;>
    simp only [Option.some.injEq, reduceCtorEq, false_implies, Option.map_eq_some_iff]
  case case7 =>
    rintro ⟨mid, hjoin, rfl⟩
    obtain ⟨rfl, hended⟩ := joinNetwork_cases hjoin
    exact .join hended
  case case21 =>
    rintro ⟨mid, hbegin, rfl⟩
    obtain ⟨old, new, hget, hnew, rfl⟩ := executorStep_cases hbegin
    exact .retire hget hnew
  all_goals rintro rfl
  case case14 hmodel => exact .model (by simpa using hmodel)
  case case16 hmodel => exact .escape (by simpa using hmodel)
  all_goals grind [StartStep, retired_iff]

/-- What is no `std::exception` leaves `start`, and nothing else does. -/
theorem startStep_escaped {openssl : Bool} {send : Nat → Bool} {s next : Impl} {c : Nat}
    {o : ServerOptions} {point : Starting} {fault : Option Failure}
    (hstep : s.startStep openssl send c o point fault = some next) :
    fault = some .other ↔ next.callers c = .escaped := by
  revert hstep
  fun_cases startStep openssl send s c o point fault <;>
    simp only [Option.some.injEq, reduceCtorEq, false_implies, Option.map_eq_some_iff]
  case case7 | case21 =>
    rintro ⟨mid, -, rfl⟩
    simp
  all_goals
    rintro rfl
    simp_all

/-- The branches of `stopStep`. -/
inductive StopStep (s : Impl) (c : Nat) (final : Bool) : Stopping → Impl → Prop
  | request : StopStep s c final .request (s.requestStopLocked.setCaller c (.stop final .control))
  | control (hfree : s.control = none) :
      StopStep s c final .control ({ s with control := some c }.setCaller c (.stop final .again))
  | again : StopStep s c final .again (s.requestStopLocked.setCaller c (.stop final .join))
  | join (hended : ∀ k, s.network = some k → s.runs k = .ended) :
      StopStep s c final .join ({ s with network := none }.setCaller c (.stop final .joined))
  | joined :
      StopStep s c final .joined ({ s with control := none }.setCaller c
        (if final then .finish .control else .finished))

theorem stopStep_cases {s next : Impl} {c : Nat} {final : Bool} {point : Stopping}
    (hstep : s.stopStep c final point = some next) : StopStep s c final point next := by
  cases point with
  | join =>
      obtain ⟨mid, hjoin, rfl⟩ := Option.map_eq_some_iff.mp hstep
      obtain ⟨rfl, hended⟩ := joinNetwork_cases hjoin
      exact .join hended
  | control =>
      simp only [stopStep, Option.ite_none_right_eq_some, Option.some.injEq] at hstep
      obtain ⟨hfree, rfl⟩ := hstep
      exact .control hfree
  | request => cases hstep; exact .request
  | again => cases hstep; exact .again
  | joined => cases hstep; exact .joined

/-- The branches of `finishStep`. -/
inductive FinishStep (s : Impl) (c : Nat) : Finishing → Impl → Prop
  | control (hfree : s.control = none) :
      FinishStep s c .control ({ s with control := some c }.setCaller c (.finish .move))
  | noExecutor (hexecutor : s.executor = none) :
      FinishStep s c .move (s.setCaller c (.finish .model))
  | move {ref : Nat} (hexecutor : s.executor = some ref) :
      FinishStep s c .move ({ s with executor := none }.setCaller c (.finish (.retire ref)))
  | retire {ref : Nat} {old new : OperationExecutor} (hget : s.executors[ref]? = some old)
      (hbegin : old.step (.closer .begin) = some new) :
      FinishStep s c (.retire ref)
        ({ s with executors := s.executors.set ref new }.setCaller c (.finish (.drain ref)))
  | drain {ref : Nat} {old : OperationExecutor} (hget : s.executors[ref]? = some old)
      (hclosed : old.closer = .closed) :
      FinishStep s c (.drain ref) (s.setCaller c (.finish .model))
  | model : FinishStep s c .model ({ s with model := none }.setCaller c (.finish .returning))
  | returning : FinishStep s c .returning ({ s with control := none }.setCaller c .finished)

theorem finishStep_cases {s next : Impl} {c : Nat} {point : Finishing}
    (hstep : s.finishStep c point = some next) : FinishStep s c point next := by
  cases point with
  | control =>
      simp only [finishStep, Option.ite_none_right_eq_some, Option.some.injEq] at hstep
      obtain ⟨hfree, rfl⟩ := hstep
      exact .control hfree
  | move =>
      simp only [finishStep] at hstep
      split at hstep
      next hexecutor => cases hstep; exact .noExecutor hexecutor
      next ref hexecutor => cases hstep; exact .move hexecutor
  | retire ref =>
      obtain ⟨mid, hbegin, rfl⟩ := Option.map_eq_some_iff.mp hstep
      obtain ⟨old, new, hget, hnew, rfl⟩ := executorStep_cases hbegin
      exact .retire hget hnew
  | drain ref =>
      simp only [finishStep, Option.ite_none_right_eq_some, Option.some.injEq] at hstep
      obtain ⟨hretired, rfl⟩ := hstep
      obtain ⟨old, hget, hclosed⟩ := (retired_iff s ref).mp hretired
      exact .drain hget hclosed
  | model => cases hstep; exact .model
  | returning => cases hstep; exact .returning

/-- The branches of `runStep`, as far as they differ in what they do to `Impl`. -/
inductive RunStep (s : Impl) (k : Nat) : Impl → Prop
  | advance {point : Run} {listener networkDone : Bool} {error : String}
      (hactive : s.runs k ≠ .ended) (hpoint : point ≠ .ended) :
      RunStep s k ({ s with
        listener := listener, networkDone := networkDone, error := error }.setRun k point)
  | startHandler (hpc : s.runs k = .listen) (hstate : s.state = .starting)
      (hopen : s.finalShutdown = false) : RunStep s k { s with state := .running }
  | refused : RunStep s k s
  | poolShutdown (hactive : s.runs k = .listen) : RunStep s k s.requestStopLocked
  | caught {message : String} (hactive : s.runs k = .caught message) :
      RunStep s k ({ s with error := message }.requestStopLocked.setRun k .cleanup)
  | finish (hactive : s.runs k = .reset) :
      RunStep s k ({ s with state := .stopped }.setRun k .ended)

theorem runStep_cases {s next : Impl} {k : Nat} {action : RunAction}
    (hstep : s.runStep k action = some next) : RunStep s k next := by
  revert hstep
  fun_cases runStep s k action <;> simp only [Option.some.injEq, reduceCtorEq, false_implies]
  all_goals rintro rfl
  case case6 hpc hstart => exact .startHandler hpc hstart.1 hstart.2
  case case7 => exact .refused
  case case8 hpc => exact .poolShutdown hpc
  case case9 ok hpc => exact .advance (by simp [hpc]) (by cases ok <;> simp)
  case case12 message hpc => exact .caught hpc
  case case14 hpc => exact .finish hpc
  all_goals exact .advance (by simp [*]) (by simp)

/-- Every step of the whole machine. -/
inductive Step (openssl : Bool) (send : Nat → Bool) (s : Impl) : Action → Impl → Prop
  | call {c : Nat} {operation : Operation} (hpc : (s.callers c).returned = true) :
      Step openssl send s (.call c operation) (s.setCaller c operation.entry)
  | start {c : Nat} {o : ServerOptions} {point : Starting} {fault : Option Failure} {next : Impl}
      (hpc : s.callers c = .start o point) (hstep : StartStep openssl send s c o point next)
      (hescaped : fault = some .other ↔ next.callers c = .escaped) :
      Step openssl send s (.caller c fault) next
  | requesting {c : Nat} (hpc : s.callers c = .requesting) :
      Step openssl send s (.caller c none) (s.requestStopLocked.setCaller c .finished)
  | stop {c : Nat} {final : Bool} {point : Stopping} {next : Impl}
      (hpc : s.callers c = .stop final point) (hstep : StopStep s c final point next) :
      Step openssl send s (.caller c none) next
  | beginning {c : Nat} {final : Bool} (hpc : s.callers c = .beginning final) :
      Step openssl send s (.caller c none)
        ({ s with finalShutdown := true }.requestStopLocked.setCaller c
          (if final then .stop true .request else .finished))
  | finish {c : Nat} {point : Finishing} {next : Impl} (hpc : s.callers c = .finish point)
      (hstep : FinishStep s c point next) : Step openssl send s (.caller c none) next
  | run {k : Nat} {action : RunAction} {next : Impl} (hstep : RunStep s k next) :
      Step openssl send s (.run k action) next
  | graceExpire : Step openssl send s .graceExpire { s with graceExpired := true }
  | admission {i ref : Nat} {fault : Option Executor.AdmitFault} {result : Executor.AdmitResult}
      {old new : OperationExecutor} (hstate : s.state = .running)
      (hopen : s.finalShutdown = false)
      (hfresh : ∀ executor ∈ s.executors, executor.handler i = .prepared)
      (hcurrent : s.executor = some ref) (hget : s.executors[ref]? = some old)
      (hadmission : old.step (.handler i (.admission s.options.maxPendingOperations.toNat fault result)) =
        some new) :
      Step openssl send s (.admission i fault result) { s with executors := s.executors.set ref new }
  | executor {ref : Nat} {action : Executor.Action} {old new : OperationExecutor}
      (hinternal : internal action) (hget : s.executors[ref]? = some old)
      (hstep : old.step action = some new) :
      Step openssl send s (.executor ref action) { s with executors := s.executors.set ref new }

theorem admitStep_cases {openssl : Bool} {send : Nat → Bool} {s next : Impl} {i : Nat}
    {fault : Option Executor.AdmitFault} {result : Executor.AdmitResult}
    (hstep : s.admitStep i fault result = some next) :
    Step openssl send s (.admission i fault result) next := by
  unfold admitStep at hstep
  split at hstep
  next => cases hstep
  next hguard =>
    obtain ⟨ref, hcurrent, hexecutor⟩ := Option.bind_eq_some_iff.mp hstep
    obtain ⟨old, new, hget, hnew, rfl⟩ := executorStep_cases hexecutor
    simp only [not_or, not_not, Bool.not_eq_true, List.any_eq_false, decide_eq_true_eq] at hguard
    exact .admission hguard.1 hguard.2.1 hguard.2.2 hcurrent hget hnew

theorem step_cases {openssl : Bool} {send : Nat → Bool} {s next : Impl} {action : Action}
    (hstep : s.step openssl send action = some next) : Step openssl send s action next := by
  cases action with
  | call c operation =>
      obtain ⟨hpc, hnext⟩ := Option.ite_none_right_eq_some.mp hstep
      cases hnext
      exact .call hpc
  | caller c fault =>
      simp only [step, callerStep] at hstep
      split at hstep
      next o point hpc => exact .start hpc (startStep_cases hstep) (startStep_escaped hstep)
      next hpc => cases hstep; exact .requesting hpc
      next final point hpc => exact .stop hpc (stopStep_cases hstep)
      next final hpc => cases hstep; exact .beginning hpc
      next point hpc => exact .finish hpc (finishStep_cases hstep)
      all_goals cases hstep
  | run k action => exact .run (runStep_cases hstep)
  | graceExpire =>
      simp only [step, Option.ite_none_right_eq_some, Option.some.injEq] at hstep
      obtain ⟨-, rfl⟩ := hstep
      exact .graceExpire
  | admission i fault result => exact admitStep_cases hstep
  | executor ref action =>
      simp only [step, Option.ite_none_right_eq_some] at hstep
      obtain ⟨hinternal, hexecutor⟩ := hstep
      obtain ⟨old, new, hget, hnew, rfl⟩ := executorStep_cases hexecutor
      exact .executor hinternal hget hnew

end Impl

end RttHttp.Server
