import RttHttp.Network.Wakeups
import RttHttp.Server.Publication

/-! # Connections of a listener

The lifecycle machine is extended by what its listener owns: the task queue that
`new_task_queue` makes, whose tasks are the connections, and `Impl::connections`,
which keeps every connection that a stop request has to reach. cpp-httplib makes the
task queue, accepts connections, shows them to the connection handler and closes their
sockets. Here it may do so at any time; what it promises is stated apart, as obligations
on the actions of a run.
-/

namespace RttHttp.Server

open Network (NetworkPool)

/-- `httplib::ServerConnection`, as far as the server looks at it. -/
structure Connection where
  active : Bool := false
  closed : Bool := false
  cancelled : Bool := false
  deriving DecidableEq, Repr

/-- The server with the connections of its listener, by identity. `pool` belongs to one
network thread; `incoming` is a connection between its handler and its queue. -/
structure Listener where
  impl : Impl
  pool : Option (Nat × NetworkPool Nat)
  incoming : Option Nat
  connections : List Nat
  capacity : Nat
  accepted : Nat
  sockets : Nat → Connection

/-- A step of the pool closes some sockets. -/
inductive Listener.Action where
  | impl (action : Server.Action)
  | createPool (k : Nat)
  | accept
  | pool (action : Network.Action Nat) (closes : List Nat)
  | activity (c : Nat) (active : Bool)

/-- The number of connections for which `start` reserves room. -/
def ServerOptions.connectionRoom (o : ServerOptions) : Nat :=
  o.workerThreads.toNat + o.maxQueuedConnections.toNat + 1

/-- The connections that a step of the pool gives up: their task has ended, or it was
refused or destroyed without having run. -/
def released : Network.Action Nat → List Nat
  | .worker _ (.finish task _) => [task]
  | .close dropped => dropped
  | .enqueue task .refused _ | .enqueue task .threw _ => [task]
  | _ => []

/-- The pool has been destroyed, or its constructor has thrown. -/
def gone : Network.Owner → Bool
  | .threw | .destroyed => true
  | _ => false

/-- The step is the shutdown callback of a pool. -/
def poolCallback : Server.Action → Bool
  | .run _ .poolShutdown => true
  | _ => false

/-- A step of the lifecycle has requested a stop. -/
abbrev StopRequested (before after : Impl) : Prop :=
  before.state ≠ .stopping ∧ after.state = .stopping

namespace Listener

def initial : Listener where
  impl := .initial
  pool := none
  incoming := none
  connections := []
  capacity := 0
  accepted := 0
  sockets := fun _ => {}

/-- `cancel()` on the connections that `selected` picks. -/
def cancel (s : Listener) (selected : Connection → Bool) : Listener :=
  { s with sockets := fun c =>
      if c ∈ s.connections ∧ selected (s.sockets c) = true then { s.sockets c with cancelled := true }
      else s.sockets c }

/-- `connections.reserve`, which allocates what it is asked for. -/
def reserve (s : Listener) (o : ServerOptions) : Listener :=
  { s with capacity := max s.capacity o.connectionRoom }

/-- What a step of the lifecycle does to the connections. Only `requestStopLocked` sets
`stopping`, and it looks at the connections when it does. -/
def follow (s : Listener) (action : Server.Action) (impl : Impl) : Listener :=
  let next := { s with impl := impl }
  if StopRequested s.impl impl then
    next.cancel fun connection => !connection.active
  else match action with
    -- Server::Impl::watchGrace
    | .graceExpire => next.cancel fun _ => true
    | .run _ .clean => { next with connections := [] }
    | .caller c _ =>
        match s.impl.callers c, impl.callers c with
        | .start o .bind, .start _ .thread => next.reserve o
        | _, _ => next
    | _ => next

/-- A step of the lifecycle. The callback comes with a step of the pool. -/
def implStep (openssl : Bool) (send : Nat → Bool) (s : Listener) (action : Server.Action) :
    Option Listener :=
  if poolCallback action then none else (s.impl.step openssl send action).map (s.follow action)

/-- What `std::erase_if` leaves of the connections. -/
def live (s : Listener) : List Nat := s.connections.filter fun c => !(s.sockets c).closed

/-- The connection handler, with the connection that has just been accepted. -/
def handleConnection (s : Listener) : Listener :=
  if s.impl.state ≠ .running ∨ s.capacity ≤ s.live.length then
    { s with
      connections := s.live
      sockets := Function.update s.sockets s.accepted { cancelled := true } }
  else
    { s with
      connections := s.live ++ [s.accepted]
      sockets := Function.update s.sockets s.accepted {} }

/-- What a step of the pool leaves: a pool that is gone is no longer there, and what has
been enqueued is no longer held. -/
def afterPool (s : Listener) (k : Nat) (next : NetworkPool Nat) (action : Network.Action Nat)
    (closes : List Nat) : Listener :=
  { s with
    pool := if gone next.owner then none else some (k, next)
    incoming := if action.enqueues then none else s.incoming
    sockets := fun c => if c ∈ closes then { s.sockets c with closed := true } else s.sockets c }

/-- A step of the pool. Its callback locks `Impl::mutex` and requests a stop. -/
def poolStep (openssl : Bool) (send : Nat → Bool) (s : Listener) (action : Network.Action Nat)
    (closes : List Nat) : Option Listener :=
  match s.pool with
  | none => none
  | some (k, pool) =>
      (pool.step action).bind fun next =>
        (if action = .callback then
          (s.impl.step openssl send (.run k .poolShutdown)).map (s.follow (.run k .poolShutdown))
        else some s).map fun moved => moved.afterPool k next action closes

def step (openssl : Bool) (send : Nat → Bool) (s : Listener) : Action → Option Listener
  | .impl action => s.implStep openssl send action
  | .createPool k =>
      some { s with
        pool := some (k, .construct s.impl.options.workerThreads.toNat
          s.impl.options.maxQueuedConnections.toNat) }
  | .accept =>
      some { s.handleConnection with incoming := some s.accepted, accepted := s.accepted + 1 }
  | .pool action closes => s.poolStep openssl send action closes
  | .activity c active =>
      some { s with sockets := Function.update s.sockets c { s.sockets c with active := active } }

/-! ## What cpp-httplib promises -/

/-- `listen_after_bind` makes its task queue, and only one. -/
def MakesOneQueue (s : Listener) : Action → Prop
  | .createPool k => s.impl.runs k = .listen ∧ s.pool = none
  | _ => True

/-- `listen_after_bind` does not return before its task queue is destroyed. -/
def OutlivesQueue (s : Listener) : Action → Prop
  | .impl action => ∀ owned ∈ s.pool, leaves owned.1 action = false
  | _ => True

/-- One thread accepts connections for an open task queue. It enqueues each one before it
accepts the next, and before it shuts the task queue down. -/
def AcceptsInTurn (s : Listener) : Action → Prop
  | .accept => (∃ owned ∈ s.pool, owned.2.owner = .opened) ∧ s.incoming = none
  | .pool (.enqueue task _ _) _ => s.incoming = some task
  | .pool .shutdown _ | .pool .destroy _ => s.incoming = none
  | _ => True

/-- The socket of a connection is closed, at the latest, when its task ends or is given up. -/
def ClosesSockets : Action → Prop
  | .pool action closes => released action ⊆ closes
  | _ => True

instance decidableMakesOneQueue (s : Listener) : ∀ action, Decidable (s.MakesOneQueue action)
  | .createPool k => inferInstanceAs (Decidable (s.impl.runs k = .listen ∧ s.pool = none))
  | .impl _ | .accept | .pool _ _ | .activity _ _ => inferInstanceAs (Decidable True)

instance decidableOutlivesQueue (s : Listener) : ∀ action, Decidable (s.OutlivesQueue action)
  | .impl action => inferInstanceAs (Decidable (∀ owned ∈ s.pool, leaves owned.1 action = false))
  | .createPool _ | .accept | .pool _ _ | .activity _ _ => inferInstanceAs (Decidable True)

instance decidableClosesSockets : ∀ action, Decidable (ClosesSockets action)
  | .pool action closes => inferInstanceAs (Decidable (released action ⊆ closes))
  | .impl _ | .createPool _ | .accept | .activity _ _ => inferInstanceAs (Decidable True)

instance decidableAcceptsInTurn (s : Listener) : ∀ action, Decidable (s.AcceptsInTurn action)
  | .accept => inferInstanceAs
      (Decidable ((∃ owned ∈ s.pool, owned.2.owner = .opened) ∧ s.incoming = none))
  | .pool action _ => match action with
      | .enqueue task _ _ => inferInstanceAs (Decidable (s.incoming = some task))
      | .shutdown | .destroy => inferInstanceAs (Decidable (s.incoming = none))
      | .create | .createFailed | .constructed | .callback | .close _ | .notify | .joined
      | .returned | .worker _ _ => inferInstanceAs (Decidable True)
  | .impl _ | .createPool _ | .activity _ _ => inferInstanceAs (Decidable True)

/-- What cpp-httplib promises of every action. -/
structure LibraryKeeps (s : Listener) (action : Action) : Prop where
  queue : s.MakesOneQueue action
  outlives : s.OutlivesQueue action
  turn : s.AcceptsInTurn action
  closes : ClosesSockets action

instance (s : Listener) (action : Action) : Decidable (s.LibraryKeeps action) :=
  decidable_of_iff (s.MakesOneQueue action ∧ s.OutlivesQueue action ∧ s.AcceptsInTurn action ∧
      ClosesSockets action)
    ⟨fun h => ⟨h.1, h.2.1, h.2.2.1, h.2.2.2⟩, fun h => ⟨h.queue, h.outlives, h.turn, h.closes⟩⟩

/-! ## The branches of a step -/

/-- The branches of `step`. The callback of a pool takes a step of the lifecycle with it. -/
inductive Step (openssl : Bool) (send : Nat → Bool) (s : Listener) : Action → Listener → Prop
  | impl {action : Server.Action} {impl : Impl}
      (hstep : s.impl.step openssl send action = some impl) :
      Step openssl send s (.impl action) (s.follow action impl)
  | createPool {k : Nat} :
      Step openssl send s (.createPool k)
        { s with
          pool := some (k, .construct s.impl.options.workerThreads.toNat
            s.impl.options.maxQueuedConnections.toNat) }
  | accept :
      Step openssl send s .accept
        { s.handleConnection with incoming := some s.accepted, accepted := s.accepted + 1 }
  | pool {k : Nat} {pool next : NetworkPool Nat} {action : Network.Action Nat} {closes : List Nat}
      (hpool : s.pool = some (k, pool)) (hstep : pool.step action = some next)
      (hquiet : action ≠ .callback) :
      Step openssl send s (.pool action closes) (s.afterPool k next action closes)
  | callback {k : Nat} {pool next : NetworkPool Nat} {impl : Impl} {closes : List Nat}
      (hpool : s.pool = some (k, pool)) (hstep : pool.step .callback = some next)
      (himpl : s.impl.step openssl send (.run k .poolShutdown) = some impl) :
      Step openssl send s (.pool .callback closes)
        ((s.follow (.run k .poolShutdown) impl).afterPool k next .callback closes)
  | activity {c : Nat} {active : Bool} :
      Step openssl send s (.activity c active)
        { s with sockets := Function.update s.sockets c { s.sockets c with active := active } }

variable {openssl : Bool} {send : Nat → Bool} {s next : Listener}

theorem poolStep_cases {action : Network.Action Nat} {closes : List Nat}
    (hstep : s.poolStep openssl send action closes = some next) :
    Step openssl send s (.pool action closes) next := by
  unfold poolStep at hstep
  cases hpool : s.pool with
  | none =>
      rw [hpool] at hstep
      cases hstep
  | some owned =>
      obtain ⟨k, pool⟩ := owned
      simp only [hpool] at hstep
      obtain ⟨after, hafter, hrest⟩ := Option.bind_eq_some_iff.mp hstep
      obtain ⟨moved, hmoved, rfl⟩ := Option.map_eq_some_iff.mp hrest
      split at hmoved
      · next hcallback =>
        subst hcallback
        obtain ⟨impl, himpl, rfl⟩ := Option.map_eq_some_iff.mp hmoved
        exact .callback hpool hafter himpl
      · next hquiet =>
        cases hmoved
        exact .pool hpool hafter hquiet

theorem step_cases {action : Action} (hstep : s.step openssl send action = some next) :
    Step openssl send s action next := by
  cases action with
  | impl action =>
      simp only [step, implStep] at hstep
      split at hstep
      · cases hstep
      · obtain ⟨impl, himpl, rfl⟩ := Option.map_eq_some_iff.mp hstep
        exact .impl himpl
  | createPool k =>
      cases hstep
      exact .createPool
  | accept =>
      cases hstep
      exact .accept
  | pool action closes => exact poolStep_cases hstep
  | activity c active =>
      cases hstep
      exact .activity

end Listener

end RttHttp.Server
