import RttHttp.Machine.Queue

/-! # The pool of network threads as an interleaved machine

`NetworkPool` is the task queue that the listener hands its connections to. One
thread owns it: it constructs the pool, shuts it down and destroys it. Any thread may
enqueue meanwhile. Each action below is one section under `mutex_`, the creation or
the join of one thread, or the end of one task. Waiting on `wake_` is modelled as
such: a thread that found nothing to do sleeps until it is notified, or until it wakes
for no reason.
-/

namespace RttHttp.Network

/-- Program points of a thread in `NetworkPool::work`. A thread that looks is about to
lock `mutex_` and to test what it waits for. -/
inductive Worker (Task : Type) where
  | looking
  | asleep
  | running (task : Task)
  | exited
  deriving DecidableEq, Repr

namespace Worker

variable {Task : Type}

def isLooking : Worker Task → Bool
  | .looking => true
  | _ => false

def isAsleep : Worker Task → Bool
  | .asleep => true
  | _ => false

/-- The task that the thread runs. -/
def task? : Worker Task → Option Task
  | .running task => some task
  | _ => none

/-- Notified, when it sleeps. -/
def notified : Worker Task → Worker Task
  | .asleep => .looking
  | worker => worker

end Worker

/-- Who calls `shutdown()`: the handler in the constructor, the user of the pool, or
the destructor. -/
inductive Cause where
  | constructor
  | user
  | destructor
  deriving DecidableEq, Repr

/-- Program points of the thread that owns the pool. -/
inductive Owner where
  | constructing
  | opened
  | callback (cause : Cause)
  | close (cause : Cause)
  | notify (cause : Cause)
  | join (cause : Cause) (thread : Nat)
  | threw
  | destroyed
  deriving DecidableEq, Repr

/-- The members of `NetworkPool`, with the program points of its threads. -/
structure NetworkPool (Task : Type) where
  width : Nat
  cap : Nat
  closing : Bool
  queue : List Task
  threads : List (Worker Task)
  owner : Owner
  deriving DecidableEq, Repr

/-- How `enqueue` ends; a full allocator makes it throw. -/
inductive Enqueued where
  | accepted
  | refused
  | threw
  deriving DecidableEq, Repr

inductive WorkerAction (Task : Type) where
  | take (task : Task)
  | sleep
  | wake
  | finish (task : Task) (threw : Bool)
  | exit
  deriving DecidableEq, Repr

/-- One atomic step. Enqueuing carries the thread that `notify_one` wakes, closing the
tasks that `queue_.clear()` destroys. -/
inductive Action (Task : Type) where
  | create
  | createFailed
  | constructed
  | enqueue (task : Task) (result : Enqueued) (woken : Option Nat)
  | shutdown
  | destroy
  | callback
  | close (dropped : List Task)
  | notify
  | joined
  | returned
  | worker (w : Nat) (action : WorkerAction Task)
  deriving DecidableEq, Repr

/-- Where the owner is when `shutdown()` has returned. -/
def Cause.after : Cause → Owner
  | .constructor => .threw
  | .user => .opened
  | .destructor => .destroyed

/-- The pool can be used: it is constructed and its destructor has not begun. -/
def Owner.usable : Owner → Bool
  | .opened => true
  | .callback cause | .close cause | .notify cause | .join cause _ => cause == .user
  | .constructing | .threw | .destroyed => false

namespace NetworkPool

variable {Task : Type}

/-- The constructor of `NetworkPool` has not created a thread yet. -/
def construct (width cap : Nat) : NetworkPool Task where
  width := width
  cap := cap
  closing := false
  queue := []
  threads := []
  owner := .constructing

/-- The tasks that threads run. -/
def runningTasks (threads : List (Worker Task)) : List Task := threads.filterMap Worker.task?

section Step

variable [DecidableEq Task]

/-- `wake_.notify_one()`, which wakes a sleeping thread if there is one. -/
def notifyOne (s : NetworkPool Task) : Option Nat → Option (NetworkPool Task)
  | none => if s.threads.any Worker.isAsleep then none else some s
  | some w =>
      if s.threads[w]? = some .asleep then some { s with threads := s.threads.set w .looking }
      else none

/-- `NetworkPool::enqueue`. -/
def enqueueStep (s : NetworkPool Task) (task : Task) (result : Enqueued) (woken : Option Nat) :
    Option (NetworkPool Task) :=
  if s.owner.usable = false then none
  else if s.closing || s.queue.length ≥ s.cap then
    if result = .refused ∧ woken = none then some s else none
  else match result with
    | .accepted => { s with queue := s.queue ++ [task] }.notifyOne woken
    | .threw => if woken = none then some s else none
    | .refused => none

/-- `NetworkPool::work`. An exception out of a task is swallowed. -/
def workerStep (s : NetworkPool Task) (w : Nat) (action : WorkerAction Task) :
    Option (NetworkPool Task) :=
  match s.threads[w]?, action with
  | some .looking, .take task =>
      if s.closing then none
      else match s.queue with
        | [] => none
        | front :: rest =>
            if front = task then
              some { s with queue := rest, threads := s.threads.set w (.running task) }
            else none
  | some .looking, .sleep =>
      if s.closing || !s.queue.isEmpty then none
      else some { s with threads := s.threads.set w .asleep }
  | some .looking, .exit =>
      if s.closing then some { s with threads := s.threads.set w .exited } else none
  | some .asleep, .wake => some { s with threads := s.threads.set w .looking }
  | some (.running running), .finish task _ =>
      if running = task then some { s with threads := s.threads.set w .looking } else none
  | _, _ => none

def step (s : NetworkPool Task) : Action Task → Option (NetworkPool Task)
  | .create =>
      if s.owner = .constructing ∧ s.threads.length < s.width then
        some { s with threads := s.threads ++ [.looking] }
      else none
  | .createFailed =>
      if s.owner = .constructing ∧ s.threads.length < s.width then
        some { s with owner := .callback .constructor }
      else none
  | .constructed =>
      if s.owner = .constructing ∧ s.threads.length = s.width then some { s with owner := .opened }
      else none
  | .enqueue task result woken => s.enqueueStep task result woken
  | .shutdown => if s.owner = .opened then some { s with owner := .callback .user } else none
  | .destroy => if s.owner = .opened then some { s with owner := .callback .destructor } else none
  -- NetworkPool::shutdown
  | .callback =>
      match s.owner with
      | .callback cause => some { s with owner := .close cause }
      | _ => none
  | .close dropped =>
      match s.owner with
      | .close cause =>
          if dropped = s.queue then
            some { s with closing := true, queue := [], owner := .notify cause }
          else none
      | _ => none
  | .notify =>
      match s.owner with
      | .notify cause =>
          some { s with threads := s.threads.map Worker.notified, owner := .join cause 0 }
      | _ => none
  | .joined =>
      match s.owner with
      | .join cause thread =>
          if s.threads[thread]? = some .exited then
            some { s with owner := .join cause (thread + 1) }
          else none
      | _ => none
  | .returned =>
      match s.owner with
      | .join cause thread =>
          if thread = s.threads.length then some { s with owner := cause.after } else none
      | _ => none
  | .worker w action => s.workerStep w action

end Step

/-! ## The branches of a step -/

/-- `notify_one` wakes one sleeping thread, unless none sleeps. -/
inductive Notified (threads : List (Worker Task)) : Option Nat → List (Worker Task) → Prop
  | nobody (hawake : ∀ worker ∈ threads, worker.isAsleep = false) : Notified threads none threads
  | one {w : Nat} (hasleep : threads[w]? = some .asleep) :
      Notified threads (some w) (threads.set w .looking)

/-- The branches of `workerStep`. -/
inductive WorkerStep (s : NetworkPool Task) (w : Nat) :
    WorkerAction Task → NetworkPool Task → Prop
  | take {task : Task} {rest : List Task} (hpc : s.threads[w]? = some .looking)
      (hopen : s.closing = false) (hqueue : s.queue = task :: rest) :
      WorkerStep s w (.take task)
        { s with queue := rest, threads := s.threads.set w (.running task) }
  | sleep (hpc : s.threads[w]? = some .looking) (hopen : s.closing = false) (hqueue : s.queue = []) :
      WorkerStep s w .sleep { s with threads := s.threads.set w .asleep }
  | exit (hpc : s.threads[w]? = some .looking) (hclosing : s.closing = true) :
      WorkerStep s w .exit { s with threads := s.threads.set w .exited }
  | wake (hpc : s.threads[w]? = some .asleep) :
      WorkerStep s w .wake { s with threads := s.threads.set w .looking }
  | finish {task : Task} {threw : Bool} (hpc : s.threads[w]? = some (.running task)) :
      WorkerStep s w (.finish task threw) { s with threads := s.threads.set w .looking }

/-- The branches of `step`, with everything they test. -/
inductive Step (s : NetworkPool Task) : Action Task → NetworkPool Task → Prop
  | create (howner : s.owner = .constructing) (hroom : s.threads.length < s.width) :
      Step s .create { s with threads := s.threads ++ [.looking] }
  | createFailed (howner : s.owner = .constructing) :
      Step s .createFailed { s with owner := .callback .constructor }
  | constructed (howner : s.owner = .constructing) (hfull : s.threads.length = s.width) :
      Step s .constructed { s with owner := .opened }
  | accepted {task : Task} {woken : Option Nat} {threads : List (Worker Task)}
      (husable : s.owner.usable = true) (hopen : s.closing = false) (hroom : s.queue.length < s.cap)
      (hnotified : Notified s.threads woken threads) :
      Step s (.enqueue task .accepted woken) { s with queue := s.queue ++ [task], threads := threads }
  | refused {task : Task} (husable : s.owner.usable = true)
      (hfull : s.closing = true ∨ s.cap ≤ s.queue.length) : Step s (.enqueue task .refused none) s
  | enqueueThrew {task : Task} (husable : s.owner.usable = true) :
      Step s (.enqueue task .threw none) s
  | shutdown (howner : s.owner = .opened) : Step s .shutdown { s with owner := .callback .user }
  | destroy (howner : s.owner = .opened) : Step s .destroy { s with owner := .callback .destructor }
  | callback {cause : Cause} (howner : s.owner = .callback cause) :
      Step s .callback { s with owner := .close cause }
  | close {cause : Cause} (howner : s.owner = .close cause) :
      Step s (.close s.queue) { s with closing := true, queue := [], owner := .notify cause }
  | notify {cause : Cause} (howner : s.owner = .notify cause) :
      Step s .notify { s with threads := s.threads.map Worker.notified, owner := .join cause 0 }
  | joined {cause : Cause} {thread : Nat} (howner : s.owner = .join cause thread)
      (hexited : s.threads[thread]? = some .exited) :
      Step s .joined { s with owner := .join cause (thread + 1) }
  | returned {cause : Cause} (howner : s.owner = .join cause s.threads.length) :
      Step s .returned { s with owner := cause.after }
  | worker {w : Nat} {action : WorkerAction Task} {next : NetworkPool Task}
      (hworker : WorkerStep s w action next) : Step s (.worker w action) next

variable [DecidableEq Task] {s next : NetworkPool Task}

theorem workerStep_cases {w : Nat} {action : WorkerAction Task}
    (hstep : s.workerStep w action = some next) : WorkerStep s w action next := by
  revert hstep
  fun_cases workerStep s w action <;> simp only [Option.some.injEq, reduceCtorEq, false_implies]
  all_goals rintro rfl
  all_goals grind [WorkerStep]

theorem enqueueStep_cases {task : Task} {result : Enqueued} {woken : Option Nat}
    (hstep : s.enqueueStep task result woken = some next) :
    Step s (.enqueue task result woken) next := by
  unfold enqueueStep at hstep
  split at hstep
  · cases hstep
  · next husable =>
    rw [Bool.not_eq_false] at husable
    split at hstep
    · next hfull =>
      rw [Option.ite_none_right_eq_some] at hstep
      obtain ⟨⟨rfl, rfl⟩, hsame⟩ := hstep
      cases hsame
      exact .refused husable (by simpa using hfull)
    · next hroom =>
      rw [Bool.or_eq_true, decide_eq_true_eq, not_or, Bool.not_eq_true, Nat.not_le] at hroom
      cases result with
      | refused => cases hstep
      | threw =>
          rw [Option.ite_none_right_eq_some] at hstep
          obtain ⟨rfl, hsame⟩ := hstep
          cases hsame
          exact .enqueueThrew husable
      | accepted =>
          cases woken with
          | none =>
              rw [notifyOne, Option.ite_none_left_eq_some] at hstep
              obtain ⟨hawake, hnext⟩ := hstep
              cases hnext
              exact .accepted husable hroom.1 hroom.2 (.nobody (by simpa using hawake))
          | some w =>
              rw [notifyOne, Option.ite_none_right_eq_some] at hstep
              obtain ⟨hasleep, hnext⟩ := hstep
              cases hnext
              exact .accepted husable hroom.1 hroom.2 (.one hasleep)

theorem step_cases {action : Action Task} (hstep : s.step action = some next) :
    Step s action next := by
  cases action with
  | enqueue task result woken => exact enqueueStep_cases hstep
  | worker w action => exact .worker (workerStep_cases hstep)
  | _ =>
      revert hstep
      simp only [step]
      grind [Step]

end NetworkPool

end RttHttp.Network
