import RttHttp.Server.Listener
import Mathlib.Data.List.Nodup

/-! # Every connection is within reach of a stop

The listener shows a connection to the handler before it enqueues it, and the handler
either keeps it in `Impl::connections` or cancels it. So a connection that is still
open is kept or cancelled, as long as the list is cleared only behind the listener. The
room that `start` reserves is enough for the connections that the pool can hold.
-/

namespace RttHttp.Server

open Network (NetworkPool)

/-- Points of a network thread from its listener to the cleanup. -/
def Run.serving : Run → Bool
  | .listen | .unlistened | .caught _ | .cleanup => true
  | _ => false

/-! ## What the lifecycle does to the listener -/

namespace Impl

variable {openssl : Bool} {send : Nat → Bool} {s next : Impl} {action : Action}

/-- Whoever opens a listener has installed its options. -/
def Installed (s : Impl) : Prop :=
  ∀ c o point, s.callers c = .start o point → (Caller.start o point).opening = true → s.options = o

theorem installed_initial : Installed initial := nofun

/-- The options change where `start` installs its own, and the caller moves on. -/
theorem options_of_step (hstep : Step openssl send s action next) :
    next.options = s.options ∨ ∃ c o, s.callers c = .start o .install ∧
      next.callers = Function.update s.callers c (.start o .model) ∧ next.options = o := by
  cases hstep with
  | @start c o point _ _ hpc hpoint =>
      cases hpoint with
      | install => exact .inr ⟨c, o, hpc, rfl, rfl⟩
      | _ => exact .inl rfl
  | stop hpc hpoint => cases hpoint <;> exact .inl rfl
  | finish hpc hpoint => cases hpoint <;> exact .inl rfl
  | run hrun => cases hrun <;> exact .inl rfl
  | _ => exact .inl rfl

/-- A caller inside `start` has been where it is, or has got there by a step of `start`,
or has just called it. -/
theorem start_of_step (hstep : Step openssl send s action next) {c : Nat} {o : ServerOptions}
    {point : Starting} (hpc : next.callers c = .start o point) :
    s.callers c = .start o point ∨ point = .control ∨
      ∃ earlier fault, s.callers c = .start o earlier ∧ action = .caller c fault ∧
        StartStep openssl send s c o earlier next := by
  rcases callers_of_step hstep c with hsame | ⟨operation, rfl⟩ | ⟨fault, rfl⟩
  · exact .inl (hsame ▸ hpc)
  · cases hstep
    cases operation <;> simp [Operation.entry] at hpc
    exact .inr (.inl hpc.2.symm)
  · cases hstep with
    | @start _ o' earlier _ _ hbefore hpoint =>
        have hsame : o' = o := by
          cases hpoint <;> simp at hpc <;> exact hpc.1
        subst hsame
        exact .inr (.inr ⟨earlier, fault, hbefore, rfl, hpoint⟩)
    | @stop _ final _ _ _ hpoint =>
        cases hpoint <;> simp at hpc
        cases final <;> cases hpc
    | finish _ hpoint => cases hpoint <;> simp at hpc
    | requesting => simp at hpc
    | @beginning _ final =>
        simp at hpc
        cases final <;> cases hpc

theorem Installed.step (h : s.Lifecycle) (hinstalled : s.Installed)
    (hstep : Step openssl send s action next) : next.Installed := by
  intro c o point hpc hopening
  rcases start_of_step hstep hpc with hsame | rfl | ⟨earlier, fault, hbefore, -, hpoint⟩
  · rcases options_of_step hstep with hoptions | ⟨other, o', hother, hcallers, -⟩
    · exact hoptions.trans (hinstalled c o point hsame hopening)
    · -- Both would hold the lock.
      have hcontrol : (s.callers other).holdsControl = true := by rw [hother]; rfl
      have hself : (s.callers c).holdsControl = true := by
        rw [hsame]
        exact Caller.holdsControl_of_opening hopening
      obtain rfl := h.holder_unique hself hcontrol
      rw [hcallers, Function.update_self] at hpc
      cases hpc
      cases hother.symm.trans hsame
  · cases hopening
  · cases hpoint with
    | install => rfl
    | failure hpoint =>
        refine hinstalled c o earlier hbefore ?_
        rcases hpoint with rfl | rfl | rfl | rfl <;> rfl
    | returning => simp at hpc
    | control | guardError | guardRunning | guard | join | invalid | validate | conflict | stopped
    | thread | running | interrupted | failed =>
        simp only [setCaller, setRun, Function.update_self, Caller.start.injEq] at hpc
        rw [← hpc.2] at hopening
        cases hopening
    | _ => exact hinstalled c o _ hbefore rfl

/-- Behind a network thread the options stay. -/
theorem Lifecycle.options_of_active (h : s.Lifecycle) (hstep : Step openssl send s action next)
    {k : Nat} (hactive : s.runs k ≠ .ended) : next.options = s.options := by
  rcases options_of_step hstep with hoptions | ⟨c, o, hpc, -, -⟩
  · exact hoptions
  · have hassert := h.assertion c
    rw [hpc] at hassert
    exact absurd hassert.2 (h.active k hactive).2.1

/-- A network thread has been there, or is spawned by `start`. -/
theorem active_of_step (hstep : Step openssl send s action next) {k : Nat}
    (hactive : next.runs k ≠ .ended) :
    s.runs k ≠ .ended ∨ next.options = s.options ∧ ∃ c o, s.callers c = .start o .thread := by
  cases hstep with
  | @start c o _ _ _ hpc hpoint =>
      cases hpoint with
      | thread => exact .inr ⟨rfl, c, o, hpc⟩
      | _ => exact .inl hactive
  | stop _ hpoint => cases hpoint <;> exact .inl hactive
  | finish _ hpoint => cases hpoint <;> exact .inl hactive
  | @run j _ _ hrun =>
      by_cases hj : k = j
      · subst hj
        cases hrun with
        | advance hbefore => exact .inl hbefore
        | caught hbefore => exact .inl (by simp [hbefore])
        | finish => simp at hactive
        | startHandler | refused | poolShutdown => exact .inl hactive
      · cases hrun <;>
          first
            | exact .inl hactive
            | exact .inl fun hended => hactive ((Function.update_of_ne hj _ _).trans hended)
  | _ => exact .inl hactive

/-- A network thread that may have connections goes on to its cleanup. -/
theorem Lifecycle.serving_of_step (h : s.Lifecycle) (hstep : s.step openssl send action = some next)
    {k : Nat} (hserving : (s.runs k).serving = true) :
    (next.runs k).serving = true ∨ action = .run k .clean := by
  have hactive : s.runs k ≠ .ended := fun hended => by
    rw [hended] at hserving
    cases hserving
  cases step_cases hstep with
  | @start c o point _ _ hpc hpoint =>
      cases hpoint with
      | thread =>
          -- A listener is opened only when none is there.
          have hassert := h.assertion c
          rw [hpc] at hassert
          cases (h.active k hactive).1.symm.trans hassert.1.1
      | _ => exact .inl hserving
  | stop _ hpoint => cases hpoint <;> exact .inl hserving
  | finish _ hpoint => cases hpoint <;> exact .inl hserving
  | @run j act _ hrun =>
      by_cases hj : j = k
      · subst hj
        replace hstep : s.runStep j act = some next := hstep
        revert hstep
        fun_cases runStep s j act <;> simp only [Option.some.injEq, reduceCtorEq, false_implies]
        all_goals rintro rfl
        case case9 ok _ => cases ok <;> simp [Run.serving]
        all_goals simp_all [Run.serving, requestStopLocked]
      · cases hrun <;>
          first
            | exact .inl hserving
            | exact .inl ((congrArg Run.serving (Function.update_of_ne (Ne.symm hj) _ _)).trans hserving)
  | _ => exact .inl hserving

/-- The grace period expires behind a stop request. -/
theorem graceExpired_of_step (hstep : s.step openssl send action = some next)
    (hexpired : next.graceExpired = true) :
    s.graceExpired = true ∨ action = .graceExpire ∧ s.state = .stopping ∧ next.state = .stopping := by
  cases step_cases hstep with
  | start _ hpoint =>
      cases hpoint with
      | install => cases hexpired
      | _ => exact .inl hexpired
  | stop _ hpoint => cases hpoint <;> exact .inl hexpired
  | finish _ hpoint => cases hpoint <;> exact .inl hexpired
  | run hrun => cases hrun <;> exact .inl hexpired
  | graceExpire =>
      simp only [step, Option.ite_none_right_eq_some] at hstep
      exact .inr ⟨rfl, hstep.1.2, hstep.1.2⟩
  | _ => exact .inl hexpired

/-- No listener is opened or served behind an expired grace period. -/
def Expired (s : Impl) : Prop :=
  s.graceExpired = true → s.state = .stopping ∨ s.state = .stopped

theorem Expired.step (hexpired : s.Expired) (hstep : s.step openssl send action = some next) :
    next.Expired := by
  intro hnext
  rcases graceExpired_of_step hstep hnext with hbefore | ⟨-, -, hstopping⟩
  · have hstate := hexpired hbefore
    have hrequest : s.requestStopLocked.state = .stopping ∨ s.requestStopLocked.state = .stopped := by
      rcases hstate with hstate | hstate <;> simp [requestStopLocked, hstate]
    cases step_cases hstep with
    | start _ hpoint =>
        cases hpoint with
        | install => cases hnext
        | stopped | failed => exact .inr rfl
        | _ => exact hstate
    | requesting | beginning => exact hrequest
    | stop _ hpoint => cases hpoint <;> first | exact hstate | exact hrequest
    | finish _ hpoint => cases hpoint <;> exact hstate
    | run hrun =>
        cases hrun with
        | advance | refused => exact hstate
        | startHandler _ hstarting => simp [hstarting] at hstate
        | poolShutdown | caught => exact hrequest
        | finish => exact .inr rfl
    | _ => exact hstate
  · exact .inl hstopping

end Impl

/-! ## What a step of the lifecycle does to the connections -/

namespace Listener

variable {openssl : Bool} {send : Nat → Bool} {s next : Listener}

/-- The branches of `follow`. -/
inductive Followed (s : Listener) (impl : Impl) : Server.Action → Listener → Prop
  | requested {action : Server.Action} (hstop : StopRequested s.impl impl) :
      Followed s impl action (cancel { s with impl := impl } fun connection => !connection.active)
  | expired (hsame : ¬ StopRequested s.impl impl) :
      Followed s impl .graceExpire (cancel { s with impl := impl } fun _ => true)
  | cleaned {k : Nat} (hsame : ¬ StopRequested s.impl impl) :
      Followed s impl (.run k .clean) { s with impl := impl, connections := [] }
  | reserved {c : Nat} {fault : Option Failure} {o : ServerOptions}
      (hsame : ¬ StopRequested s.impl impl) (hbind : s.impl.callers c = .start o .bind) :
      Followed s impl (.caller c fault) (reserve { s with impl := impl } o)
  | other {action : Server.Action} (hsame : ¬ StopRequested s.impl impl) (hgrace : action ≠ .graceExpire)
      (hclean : ∀ k, action ≠ .run k .clean)
      (hreserve : ∀ c fault o o', action = .caller c fault → s.impl.callers c = .start o .bind →
        impl.callers c ≠ .start o' .thread) :
      Followed s impl action { s with impl := impl }

theorem follow_cases (s : Listener) (action : Server.Action) (impl : Impl) :
    Followed s impl action (s.follow action impl) := by
  unfold follow
  dsimp only
  split
  · next hstop => exact .requested hstop
  · next hsame =>
    split
    · exact .expired hsame
    · exact .cleaned hsame
    · next c fault =>
      split
      · next hbind _ => exact .reserved hsame hbind
      · next hother =>
        refine .other hsame nofun nofun fun c' fault' o o' haction hbind hthread => ?_
        cases haction
        exact hother o o' hbind hthread
    · next hgrace hclean hcaller =>
      refine .other hsame (fun h => hgrace h) (fun k h => hclean k h) fun c fault _ _ h => ?_
      exact absurd h (hcaller c fault)

/-- What a step of the lifecycle leaves alone. -/
structure Followed.Kept (s : Listener) (impl : Impl) (action : Server.Action) (next : Listener) :
    Prop where
  impl : next.impl = impl
  pool : next.pool = s.pool
  incoming : next.incoming = s.incoming
  accepted : next.accepted = s.accepted
  capacity : s.capacity ≤ next.capacity
  connections : next.connections = s.connections ∨
    (∃ k, action = .run k .clean) ∧ next.connections = []
  sockets : ∀ c, next.sockets c = s.sockets c ∨
    next.sockets c = { s.sockets c with cancelled := true }

theorem cancel_sockets (s : Listener) (selected : Connection → Bool) (c : Nat) :
    (s.cancel selected).sockets c = s.sockets c ∨
      (s.cancel selected).sockets c = { s.sockets c with cancelled := true } := by
  simp only [cancel]
  split
  · exact .inr rfl
  · exact .inl rfl

theorem Followed.kept {impl : Impl} {action : Server.Action} (h : Followed s impl action next) :
    Followed.Kept s impl action next := by
  cases h with
  | requested | expired =>
      exact ⟨rfl, rfl, rfl, rfl, Nat.le_refl _, .inl rfl, cancel_sockets { s with impl := impl } _⟩
  | @cleaned k =>
      exact ⟨rfl, rfl, rfl, rfl, Nat.le_refl _, .inr ⟨⟨k, rfl⟩, rfl⟩, fun _ => .inl rfl⟩
  | reserved => exact ⟨rfl, rfl, rfl, rfl, Nat.le_max_left _ _, .inl rfl, fun _ => .inl rfl⟩
  | other => exact ⟨rfl, rfl, rfl, rfl, Nat.le_refl _, .inl rfl, fun _ => .inl rfl⟩

/-! ## The invariant -/

/-- Where an accepted connection is. -/
def Located (s : Listener) (c : Nat) : Prop :=
  (s.sockets c).closed = true ∨ s.incoming = some c ∨
    ∃ k pool, s.pool = some (k, pool) ∧
      (c ∈ pool.queue ∨ c ∈ NetworkPool.runningTasks pool.threads)

/-- A stop request, or the end of the grace period, does not miss the connection. -/
def Within (s : Listener) (c : Nat) : Prop :=
  (s.sockets c).closed = true ∨ (s.sockets c).cancelled = true ∨ c ∈ s.connections

/-- The pool of network thread `k`, made with the options of its listener. -/
structure Serves (impl : Impl) (k : Nat) (pool : NetworkPool Nat) : Prop where
  listening : impl.runs k = .listen
  invariant : pool.Invariant
  width : pool.width = impl.options.workerThreads.toNat
  cap : pool.cap = impl.options.maxQueuedConnections.toNat
  present : gone pool.owner = false

/-- What holds in every state of a listener. -/
structure Owned (s : Listener) : Prop where
  lifecycle : s.impl.Lifecycle
  installed : s.impl.Installed
  expired : s.impl.Expired
  reserving : ∀ c o, s.impl.callers c = .start o .thread → o.connectionRoom ≤ s.capacity
  reserved : ∀ k, s.impl.runs k ≠ .ended → s.impl.options.connectionRoom ≤ s.capacity
  pool : ∀ k pool, s.pool = some (k, pool) → Serves s.impl k pool
  incoming : ∀ c, s.incoming = some c →
    c < s.accepted ∧ ∃ k pool, s.pool = some (k, pool) ∧ pool.owner = .opened
  located : ∀ c < s.accepted, s.Located c
  within : ∀ c < s.accepted, s.Within c
  distinct : s.connections.Nodup
  accepted : ∀ c ∈ s.connections, c < s.accepted
  bounded : s.connections.length ≤ s.capacity
  serving : s.connections ≠ [] → ∃ k, (s.impl.runs k).serving = true
  cancelled : s.impl.graceExpired = true → ∀ c < s.accepted,
    (s.sockets c).closed = true ∨ (s.sockets c).cancelled = true

theorem owned_initial : Owned initial where
  lifecycle := Impl.lifecycle_initial
  installed := Impl.installed_initial
  expired := nofun
  reserving := nofun
  reserved _ hactive := absurd rfl hactive
  pool := nofun
  incoming := nofun
  located := nofun
  within := nofun
  distinct := .nil
  accepted := nofun
  bounded := Nat.le_refl _
  serving := nofun
  cancelled := nofun

/-- What `start` has reserved when it hands over to the network thread. -/
theorem Owned.reserving_follow (h : s.Owned) {action : Server.Action} {impl : Impl}
    (hstep : s.impl.step openssl send action = some impl) (hfollowed : Followed s impl action next)
    {c : Nat} {o : ServerOptions} (hpc : impl.callers c = .start o .thread) :
    o.connectionRoom ≤ next.capacity := by
  have hkept := hfollowed.kept
  rcases Impl.start_of_step (Impl.step_cases hstep) hpc with hsame | hfalse |
    ⟨earlier, fault, hbefore, rfl, hpoint⟩
  · exact (h.reserving c o hsame).trans hkept.capacity
  · cases hfalse
  · cases hpoint with
    | bind hstate =>
        cases hfollowed with
        | requested hstop => cases hstop.2.symm.trans hstate
        | reserved _ hbind =>
            cases hbefore.symm.trans hbind
            exact Nat.le_max_right _ _
        | other _ _ _ hreserve => exact absurd hpc (hreserve c fault o o rfl hbefore)
    | escape | returning => simp at hpc
    | _ =>
        simp only [Impl.setCaller, Impl.setRun, Function.update_self, Caller.start.injEq] at hpc
        cases hpc.2

/-- The room that is reserved behind an open listener. -/
theorem Owned.reserved_follow (h : s.Owned) {action : Server.Action} {impl : Impl}
    (hstep : s.impl.step openssl send action = some impl) (hkept : Followed.Kept s impl action next)
    {k : Nat} (hactive : impl.runs k ≠ .ended) : impl.options.connectionRoom ≤ next.capacity := by
  refine le_trans ?_ hkept.capacity
  rcases Impl.active_of_step (Impl.step_cases hstep) hactive with hbefore | ⟨hoptions, c, o, hpc⟩
  · rw [h.lifecycle.options_of_active (Impl.step_cases hstep) hbefore]
    exact h.reserved k hbefore
  · rw [hoptions, h.installed c o _ hpc rfl]
    exact h.reserving c o hpc

/-- Without a pool no connection is open. -/
theorem Owned.closed_of_none (h : s.Owned) (hnone : s.pool = none) :
    ∀ c < s.accepted, (s.sockets c).closed = true := by
  intro c hc
  rcases h.located c hc with hclosed | hincoming | ⟨k, pool, hpool, -⟩
  · exact hclosed
  · obtain ⟨-, k, pool, hpool, -⟩ := h.incoming c hincoming
    cases hnone.symm.trans hpool
  · cases hnone.symm.trans hpool

theorem clean_cases {k : Nat} {impl : Impl}
    (hstep : s.impl.step openssl send (.run k .clean) = some impl) :
    s.impl.runs k = .cleanup ∧ impl.state = s.impl.state := by
  replace hstep : s.impl.runStep k .clean = some impl := hstep
  unfold Impl.runStep at hstep
  cases hpc : s.impl.runs k with
  | cleanup =>
      rw [hpc] at hstep
      cases hstep
      exact ⟨rfl, rfl⟩
  | _ =>
      rw [hpc] at hstep
      cases hstep

theorem Followed.Kept.closed {impl : Impl} {action : Server.Action}
    (hkept : Followed.Kept s impl action next) {c : Nat} (hclosed : (s.sockets c).closed = true) :
    (next.sockets c).closed = true := by
  rcases hkept.sockets c with hsame | hsame <;> simpa [hsame] using hclosed

theorem Followed.Kept.cancelled {impl : Impl} {action : Server.Action}
    (hkept : Followed.Kept s impl action next) {c : Nat}
    (hcancelled : (s.sockets c).cancelled = true) : (next.sockets c).cancelled = true := by
  rcases hkept.sockets c with hsame | hsame <;> simp [hsame, hcancelled]

/-- The listener of a pool that is still there goes on with its options. -/
theorem Owned.pool_follow (h : s.Owned) {action : Server.Action} {impl : Impl}
    (hstep : s.impl.step openssl send action = some impl) (houtlives : s.OutlivesQueue (.impl action))
    {k : Nat} {pool : NetworkPool Nat} (hpool : s.pool = some (k, pool)) : Serves impl k pool := by
  have hserves := h.pool k pool hpool
  obtain ⟨hlisten, hoptions⟩ :=
    h.lifecycle.listening_of_step hstep hserves.listening (houtlives (k, pool) hpool)
  exact ⟨hlisten, hserves.invariant, hoptions ▸ hserves.width, hoptions ▸ hserves.cap,
    hserves.present⟩

/-- The list is cleared behind the listener, when its pool is gone. -/
theorem Owned.none_of_clean (h : s.Owned) {k : Nat} {impl : Impl}
    (hstep : s.impl.step openssl send (.run k .clean) = some impl) : s.pool = none := by
  have hcleanup := (clean_cases hstep).1
  cases hpool : s.pool with
  | none => rfl
  | some owned =>
      -- The run that cleans up and the one that listens would be the same.
      have hlisten := (h.pool owned.1 owned.2 hpool).listening
      have hnetwork := (h.lifecycle.active k (by simp [hcleanup])).1
      cases hnetwork.symm.trans (h.lifecycle.active owned.1 (by simp [hlisten])).1
      cases hcleanup.symm.trans hlisten

theorem Owned.within_follow (h : s.Owned) {action : Server.Action} {impl : Impl}
    (hstep : s.impl.step openssl send action = some impl) (hkept : Followed.Kept s impl action next)
    {c : Nat} (hc : c < s.accepted) : next.Within c := by
  rcases hkept.connections with hsame | ⟨⟨k, rfl⟩, -⟩
  · rw [Within, hsame]
    exact (h.within c hc).imp hkept.closed (Or.imp_left hkept.cancelled)
  · exact .inl (hkept.closed (h.closed_of_none (h.none_of_clean hstep) c hc))

/-- The list stays as it is, or is cleared. -/
theorem Owned.connections_follow (h : s.Owned) {action : Server.Action} {impl : Impl}
    (hkept : Followed.Kept s impl action next) :
    next.connections.Nodup ∧ (∀ c ∈ next.connections, c < s.accepted) ∧
      next.connections.length ≤ next.capacity := by
  rcases hkept.connections with hsame | ⟨-, hnone⟩
  · rw [hsame]
    exact ⟨h.distinct, h.accepted, h.bounded.trans hkept.capacity⟩
  · rw [hnone]
    exact ⟨.nil, nofun, Nat.zero_le _⟩

theorem Owned.serving_follow (h : s.Owned) {action : Server.Action} {impl : Impl}
    (hstep : s.impl.step openssl send action = some impl) (hfollowed : Followed s impl action next)
    (hnonempty : next.connections ≠ []) : ∃ k, (impl.runs k).serving = true := by
  rcases hfollowed.kept.connections with hsame | ⟨-, hnone⟩
  · obtain ⟨k, hserving⟩ := h.serving (hsame ▸ hnonempty)
    rcases h.lifecycle.serving_of_step hstep hserving with hstill | rfl
    · exact ⟨k, hstill⟩
    -- The step that ends the serving is the one that clears the list.
    · exfalso
      cases hfollowed with
      | requested hstop => exact hstop.1 ((clean_cases hstep).2 ▸ hstop.2)
      | cleaned => exact hnonempty rfl
      | other _ _ hclean => exact hclean k rfl
  · exact absurd hnone hnonempty

/-- When the grace period expires, every connection that is kept is cancelled. -/
theorem Owned.cancelled_follow (h : s.Owned) {action : Server.Action} {impl : Impl}
    (hstep : s.impl.step openssl send action = some impl) (hfollowed : Followed s impl action next)
    (hexpired : impl.graceExpired = true) {c : Nat} (hc : c < s.accepted) :
    (next.sockets c).closed = true ∨ (next.sockets c).cancelled = true := by
  have hkept := hfollowed.kept
  rcases Impl.graceExpired_of_step hstep hexpired with hbefore | ⟨rfl, hstate, -⟩
  · exact (h.cancelled hbefore c hc).imp hkept.closed hkept.cancelled
  -- It expires now: what is neither closed nor cancelled is still in the list.
  · rcases h.within c hc with hdone | hdone | hmem
    · exact .inl (hkept.closed hdone)
    · exact .inr (hkept.cancelled hdone)
    · cases hfollowed with
      | requested hstop => exact absurd hstate hstop.1
      | expired =>
          right
          simp [cancel, hmem]
      | other _ hgrace => exact absurd rfl hgrace

/-- A step of the lifecycle that leaves the pool where it is. -/
theorem Owned.follow (h : s.Owned) {action : Server.Action} {impl : Impl}
    (hstep : s.impl.step openssl send action = some impl) (houtlives : s.OutlivesQueue (.impl action))
    (hfollowed : Followed s impl action next) : next.Owned := by
  have hkept := hfollowed.kept
  obtain ⟨hdistinct, haccepted, hbounded⟩ := h.connections_follow hkept
  have hafter : impl.Lifecycle := h.lifecycle.of_step hstep
  refine {
    lifecycle := hkept.impl ▸ hafter
    installed := hkept.impl ▸ h.installed.step h.lifecycle (Impl.step_cases hstep)
    expired := hkept.impl ▸ h.expired.step hstep
    reserving := ?reserving
    reserved := ?reserved
    pool := ?pool
    incoming := ?incoming
    located := ?located
    within := ?within
    distinct := hdistinct
    accepted := hkept.accepted ▸ haccepted
    bounded := hbounded
    serving := ?serving
    cancelled := ?cancelled }
  case reserving =>
    rw [hkept.impl]
    exact fun c o hpc => h.reserving_follow hstep hfollowed hpc
  case reserved =>
    rw [hkept.impl]
    exact fun k hactive => h.reserved_follow hstep hkept hactive
  case pool =>
    rw [hkept.impl, hkept.pool]
    exact fun k pool hpool => h.pool_follow hstep houtlives hpool
  case incoming =>
    rw [hkept.incoming, hkept.accepted, hkept.pool]
    exact h.incoming
  case located =>
    rw [hkept.accepted]
    intro c hc
    rw [Located, hkept.incoming, hkept.pool]
    exact (h.located c hc).imp_left hkept.closed
  case within =>
    rw [hkept.accepted]
    exact fun c hc => h.within_follow hstep hkept hc
  case serving =>
    rw [hkept.impl]
    exact h.serving_follow hstep hfollowed
  case cancelled =>
    rw [hkept.impl, hkept.accepted]
    exact fun hexpired c hc => h.cancelled_follow hstep hfollowed hexpired hc

/-! ## A new connection -/

/-- The branches of the connection handler. -/
inductive Handled (s : Listener) : Listener → Prop
  | refused (hreason : s.impl.state ≠ .running ∨ s.capacity ≤ s.live.length) :
      Handled s
        { s with
          connections := s.live
          sockets := Function.update s.sockets s.accepted { cancelled := true } }
  | kept (hrunning : s.impl.state = .running) (hroom : s.live.length < s.capacity) :
      Handled s
        { s with
          connections := s.live ++ [s.accepted]
          sockets := Function.update s.sockets s.accepted {} }

theorem handleConnection_cases (s : Listener) : Handled s s.handleConnection := by
  unfold handleConnection
  split
  · next hreason => exact .refused hreason
  · next hkept =>
    rw [not_or, not_not, Nat.not_le] at hkept
    exact .kept hkept.1 hkept.2

theorem Handled.impl (h : Handled s next) : next.impl = s.impl := by
  cases h <;> rfl

/-- A pool cannot hold more connections than there is room for. -/
theorem Owned.live_length_le (h : s.Owned) {k : Nat} {pool : NetworkPool Nat}
    (hpool : s.pool = some (k, pool)) (hfree : s.incoming = none) :
    s.live.length < s.capacity := by
  have hserves := h.pool k pool hpool
  have hheld : s.live ⊆ pool.queue ++ NetworkPool.runningTasks pool.threads := by
    intro c hc
    obtain ⟨hmem, hopen⟩ := List.mem_filter.mp hc
    rcases h.located c (h.accepted c hmem) with hclosed | hincoming | ⟨j, other, hother, hplace⟩
    · simp [hclosed] at hopen
    · cases hfree.symm.trans hincoming
    · cases hpool.symm.trans hother
      exact List.mem_append.mpr hplace
  have hlength := ((h.distinct.filter _).subperm hheld).length_le
  have hqueue := hserves.invariant.bounded
  have hrunning : (NetworkPool.runningTasks pool.threads).length ≤ pool.width :=
    (List.length_filterMap_le _ _).trans hserves.invariant.width
  have hreserved := h.reserved k (by simp [hserves.listening])
  rw [hserves.cap] at hqueue
  rw [hserves.width] at hrunning
  rw [List.length_append] at hlength
  rw [ServerOptions.connectionRoom] at hreserved
  have hlive : s.live.length ≤ pool.queue.length + (NetworkPool.runningTasks pool.threads).length :=
    hlength
  omega

/-- A new connection, in the list or cancelled. -/
theorem Owned.insert (h : s.Owned) {k : Nat} {pool : NetworkPool Nat}
    (hpool : s.pool = some (k, pool)) (hopened : pool.owner = .opened) (hfree : s.incoming = none)
    {connections : List Nat} {connection : Connection} (hdistinct : connections.Nodup)
    (hmem : ∀ c ∈ connections, c < s.accepted + 1) (hlive : ∀ c ∈ s.live, c ∈ connections)
    (hroom : connections.length ≤ s.capacity)
    (hwithin : connection.cancelled = true ∨ s.accepted ∈ connections)
    (hexpired : s.impl.graceExpired = true → connection.cancelled = true) :
    Owned { s with
      connections := connections
      incoming := some s.accepted
      accepted := s.accepted + 1
      sockets := Function.update s.sockets s.accepted connection } where
  lifecycle := h.lifecycle
  installed := h.installed
  expired := h.expired
  reserving := h.reserving
  reserved := h.reserved
  pool := h.pool
  incoming := by
    rintro c ⟨⟩
    exact ⟨Nat.lt_succ_self _, k, pool, hpool, hopened⟩
  located := by
    intro c hc
    rcases Nat.lt_succ_iff_lt_or_eq.mp hc with hold | rfl
    · simp only [Located, Function.update_of_ne hold.ne]
      refine (h.located c hold).imp_right (Or.imp_left fun hincoming => ?_)
      cases hfree.symm.trans hincoming
    · exact .inr (.inl rfl)
  within := by
    intro c hc
    rcases Nat.lt_succ_iff_lt_or_eq.mp hc with hold | rfl
    · simp only [Within, Function.update_of_ne hold.ne]
      cases hclosed : (s.sockets c).closed with
      | true => exact .inl rfl
      | false =>
          refine .inr ((h.within c hold).resolve_left (by simp [hclosed]) |>.imp_right fun hin => ?_)
          exact hlive c (List.mem_filter.mpr ⟨hin, by simp [hclosed]⟩)
    · simp only [Within, Function.update_self]
      exact .inr hwithin
  distinct := hdistinct
  accepted := hmem
  bounded := hroom
  serving := fun _ => ⟨k, by rw [(h.pool k pool hpool).listening]; rfl⟩
  cancelled := by
    intro hgrace c hc
    rcases Nat.lt_succ_iff_lt_or_eq.mp hc with hold | rfl
    · simp only [Function.update_of_ne hold.ne]
      exact h.cancelled hgrace c hold
    · simp only [Function.update_self]
      exact .inr (hexpired hgrace)

/-- The handler keeps the invariant, whatever it does with the connection. -/
theorem Owned.accept (h : s.Owned) {k : Nat} {pool : NetworkPool Nat}
    (hpool : s.pool = some (k, pool)) (hopened : pool.owner = .opened) (hfree : s.incoming = none)
    (hhandled : Handled s next) :
    Owned { next with incoming := some s.accepted, accepted := s.accepted + 1 } := by
  have hlive : ∀ c ∈ s.live, c < s.accepted := fun c hc =>
    h.accepted c (List.mem_of_mem_filter hc)
  have hdistinct : s.live.Nodup := h.distinct.filter _
  cases hhandled with
  | refused =>
      exact h.insert hpool hopened hfree hdistinct (fun c hc => (hlive c hc).trans (Nat.lt_succ_self _))
        (fun _ => id) (h.live_length_le hpool hfree).le (.inl rfl) fun _ => rfl
  | kept hrunning hroom =>
      refine h.insert hpool hopened hfree ?_ (fun c hc => ?_) (fun _ => List.mem_append_left _) ?_
        (.inr (by simp)) fun hgrace => ?_
      · refine List.Nodup.append hdistinct (List.nodup_singleton _) fun c hc hnew => ?_
        rw [List.mem_singleton.mp hnew] at hc
        exact Nat.lt_irrefl _ (hlive _ hc)
      · rcases List.mem_append.mp hc with hold | hnew
        · exact (hlive c hold).trans (Nat.lt_succ_self _)
        · rw [List.mem_singleton.mp hnew]
          exact Nat.lt_succ_self _
      · simpa [Nat.succ_le_iff] using hroom
      · have hstate := h.expired hgrace
        simp [hrunning] at hstate

/-! ## A step of the pool -/

/-- A task that a pool holds stays there, or is given up in the step. -/
theorem held_of_step {pool after : NetworkPool Nat} {action : Network.Action Nat}
    (hstep : pool.step action = some after) {c : Nat}
    (hheld : c ∈ pool.queue ∨ c ∈ NetworkPool.runningTasks pool.threads) :
    c ∈ released action ∨ c ∈ after.queue ∨ c ∈ NetworkPool.runningTasks after.threads := by
  have hfinished : c ∈ action.finished → c ∈ released action := by
    cases action with
    | worker w act => cases act <;> simp [Network.Action.finished, released]
    | _ => simp [Network.Action.finished]
  have hdropped : c ∈ action.dropped → c ∈ released action := by
    cases action <;> simp [Network.Action.dropped, released]
  have hstarted : c ∈ NetworkPool.runningTasks pool.threads ∨ c ∈ action.started →
      c ∈ released action ∨ c ∈ after.queue ∨ c ∈ NetworkPool.runningTasks after.threads := by
    intro hrunning
    have hperm := ((NetworkPool.taskBag Nat).balance hstep).mem_iff.mp (List.mem_append.mpr hrunning)
    rcases List.mem_append.mp hperm with hend | hstill
    · exact .inl (hfinished hend)
    · exact .inr (.inr hstill)
  rcases hheld with hqueued | hrunning
  · have hbalance : c ∈ (NetworkPool.taskQueue Nat).content pool ++ action.accepted :=
      List.mem_append_left _ hqueued
    rw [show _ ++ action.accepted = _ from (NetworkPool.taskQueue Nat).balance hstep] at hbalance
    rcases List.mem_append.mp hbalance with hleft | hstill
    · rcases List.mem_append.mp hleft with hstart | hdrop
      · exact hstarted (.inr hstart)
      · exact .inl (hdropped hdrop)
    · exact .inr (.inl hstill)
  · exact hstarted (.inl hrunning)

/-- A pool that is gone holds nothing. -/
theorem nothing_of_gone {pool : NetworkPool Nat} (h : pool.Invariant) (hgone : gone pool.owner = true) :
    pool.queue = [] ∧ NetworkPool.runningTasks pool.threads = [] := by
  have hphase := h.phase
  cases howner : pool.owner with
  | threw | destroyed =>
      rw [howner] at hphase
      exact ⟨h.emptied hphase.1, NetworkPool.runningTasks_of_joined hphase.2⟩
  | _ =>
      rw [howner] at hgone
      cases hgone

/-- The accepting thread holds a connection only beside an open pool. -/
theorem opened_of_incoming {pool after : NetworkPool Nat} {action : Network.Action Nat} {c : Nat}
    {closes : List Nat} (hincoming : s.incoming = some c) (hopened : pool.owner = .opened)
    (hturn : s.AcceptsInTurn (.pool action closes)) (hstep : NetworkPool.Step pool action after) :
    after.owner = .opened := by
  cases hstep with
  | shutdown | destroy => cases hincoming.symm.trans hturn
  | worker hworker => cases hworker <;> exact hopened
  | accepted | refused | enqueueThrew | create => exact hopened
  | createFailed howner | constructed howner | callback howner | close howner | notify howner
  | joined howner | returned howner => cases hopened.symm.trans howner

/-- The connection that is enqueued is the one that has just been accepted. -/
theorem queued_of_incoming {pool after : NetworkPool Nat} {action : Network.Action Nat} {c : Nat}
    {closes : List Nat} (hincoming : s.incoming = some c) (henqueues : action.enqueues = true)
    (hturn : s.AcceptsInTurn (.pool action closes)) (hstep : NetworkPool.Step pool action after) :
    c ∈ released action ∨ c ∈ after.queue := by
  have htask : ∀ {task result woken}, action = .enqueue task result woken → task = c := by
    rintro task result woken rfl
    exact (Option.some.inj (hincoming.symm.trans hturn)).symm
  cases hstep with
  | accepted =>
      right
      rw [htask rfl]
      exact List.mem_append_right _ (List.mem_singleton_self _)
  | refused | enqueueThrew =>
      left
      rw [htask rfl]
      exact List.mem_singleton_self _
  | _ => cases henqueues

/-- A connection that the step does not give up is where it was, or one place further. -/
theorem Owned.located_afterPool (h : s.Owned) {k : Nat} {pool after : NetworkPool Nat}
    {action : Network.Action Nat} {closes : List Nat} (hpool : s.pool = some (k, pool))
    (hturn : s.AcceptsInTurn (.pool action closes)) (hcloses : released action ⊆ closes)
    (hstep : pool.step action = some after) {c : Nat} (hc : c < s.accepted) :
    (s.afterPool k after action closes).Located c := by
  have hcases := NetworkPool.step_cases hstep
  have hinvariant := (h.pool k pool hpool).invariant.step hcases
  -- Wherever the pool has the connection, it is open with it or has nothing.
  have hheld : c ∈ released action ∨ c ∈ after.queue ∨ c ∈ NetworkPool.runningTasks after.threads →
      (s.afterPool k after action closes).Located c := by
    rintro (hreleased | hplace)
    · left
      simp [Listener.afterPool, hcloses hreleased]
    · cases hgone : gone after.owner with
      | true =>
          obtain ⟨hqueue, hrunning⟩ := nothing_of_gone hinvariant hgone
          rw [hqueue, hrunning] at hplace
          simp at hplace
      | false => exact .inr (.inr ⟨k, after, by simp [Listener.afterPool, hgone], hplace⟩)
  rcases h.located c hc with hclosed | hincoming | ⟨j, other, hother, hplace⟩
  · left
    simp only [Listener.afterPool]
    split
    · rfl
    · exact hclosed
  · cases henqueues : action.enqueues with
    | true =>
        exact hheld ((queued_of_incoming hincoming henqueues hturn hcases).imp_right .inl)
    | false => exact .inr (.inl (by simp [Listener.afterPool, henqueues, hincoming]))
  · cases hpool.symm.trans hother
    exact hheld (held_of_step hstep hplace)

theorem Owned.afterPool (h : s.Owned) {k : Nat} {pool after : NetworkPool Nat}
    {action : Network.Action Nat} {closes : List Nat} (hpool : s.pool = some (k, pool))
    (hturn : s.AcceptsInTurn (.pool action closes)) (hcloses : released action ⊆ closes)
    (hstep : pool.step action = some after) : (s.afterPool k after action closes).Owned := by
  have hserves := h.pool k pool hpool
  have hcases := NetworkPool.step_cases hstep
  have hclosed : ∀ c, (s.sockets c).closed = true →
      ((s.afterPool k after action closes).sockets c).closed = true := by
    intro c hclosed
    simp only [Listener.afterPool]
    split
    · rfl
    · exact hclosed
  have hcancelled : ∀ c, (s.sockets c).cancelled = true →
      ((s.afterPool k after action closes).sockets c).cancelled = true := by
    intro c hcancelled
    simp only [Listener.afterPool]
    split <;> exact hcancelled
  refine { h with
    pool := ?pool
    incoming := ?incoming
    located := fun c hc => h.located_afterPool hpool hturn hcloses hstep hc
    within := fun c hc => (h.within c hc).imp (hclosed c) (Or.imp_left (hcancelled c))
    cancelled := fun hexpired c hc =>
      (h.cancelled hexpired c hc).imp (hclosed c) (hcancelled c) }
  case pool =>
    intro j other hother
    simp only [Listener.afterPool] at hother
    split at hother
    · cases hother
    · next hpresent =>
      cases hother
      obtain ⟨hwidth, hcap⟩ := NetworkPool.size_of_step hcases
      exact ⟨hserves.listening, hserves.invariant.step hcases, hwidth.trans hserves.width,
        hcap.trans hserves.cap, by simpa using hpresent⟩
  case incoming =>
    intro c hincoming
    simp only [Listener.afterPool] at hincoming
    split at hincoming
    · cases hincoming
    · obtain ⟨hc, j, other, hother, hopened⟩ := h.incoming c hincoming
      cases hpool.symm.trans hother
      have hstill := opened_of_incoming hincoming hopened hturn hcases
      exact ⟨hc, k, after, by simp [Listener.afterPool, hstill, gone], hstill⟩

theorem Owned.step (h : s.Owned) {action : Action} (hlibrary : s.LibraryKeeps action)
    (hstep : Step openssl send s action next) : next.Owned := by
  cases hstep with
  | impl hstep => exact h.follow hstep hlibrary.outlives (follow_cases _ _ _)
  | @createPool k =>
      obtain ⟨hlisten, hnone⟩ := hlibrary.queue
      have hclosed := h.closed_of_none hnone
      refine { h with
        pool := ?_
        incoming := fun c hincoming => ?_
        located := fun c hc => .inl (hclosed c hc) }
      · rintro j pool ⟨⟩
        exact ⟨hlisten, NetworkPool.invariant_construct _ _, rfl, rfl, rfl⟩
      · obtain ⟨-, j, pool, hpool, -⟩ := h.incoming c hincoming
        cases hnone.symm.trans hpool
  | accept =>
      obtain ⟨⟨⟨k, pool⟩, hpool, hopened⟩, hfree⟩ := hlibrary.turn
      exact h.accept hpool hopened hfree (handleConnection_cases s)
  | pool hpool hstep => exact h.afterPool hpool hlibrary.turn hlibrary.closes hstep
  | @callback k pool after impl closes hpool hstep himpl =>
      have hfollowed := follow_cases s (.run k .poolShutdown) impl
      have howned := h.follow himpl (fun _ _ => rfl) hfollowed
      exact howned.afterPool (hfollowed.kept.pool.trans hpool) trivial hlibrary.closes hstep
  | @activity c active =>
      have hsockets : ∀ other,
          (Function.update s.sockets c { s.sockets c with active := active } other).closed =
              (s.sockets other).closed ∧
            (Function.update s.sockets c { s.sockets c with active := active } other).cancelled =
              (s.sockets other).cancelled := by
        intro other
        by_cases hother : other = c
        · subst hother
          simp
        · simp [Function.update_of_ne hother]
      refine { h with
        located := fun other hother => ?_
        within := fun other hother => ?_
        cancelled := fun hexpired other hother => ?_ }
      · rw [Located, (hsockets other).1]
        exact h.located other hother
      · rw [Within, (hsockets other).1, (hsockets other).2]
        exact h.within other hother
      · rw [(hsockets other).1, (hsockets other).2]
        exact h.cancelled hexpired other hother

theorem owned_of_run {actions : List Action}
    (hlibrary : Machine.Along (step openssl send) LibraryKeeps initial actions)
    (hrun : Machine.run (step openssl send) initial actions = some s) : s.Owned :=
  Machine.run_invariant_of (fun _ _ _ h hkept hstep => h.step hkept (step_cases hstep))
    owned_initial hlibrary hrun

/-! ## Stop requests -/

/-- A stop request cancels every open connection that is not being served. -/
theorem Owned.requested (h : s.Owned) {action : Server.Action} {impl : Impl}
    (hfollowed : Followed s impl action next) (hstop : StopRequested s.impl impl) {c : Nat}
    (hc : c < s.accepted) :
    (next.sockets c).closed = true ∨ (next.sockets c).cancelled = true ∨
      (next.sockets c).active = true := by
  cases hfollowed with
  | requested =>
      have hwithin := h.within c hc
      simp only [Within, cancel] at hwithin ⊢
      split
      · exact .inr (.inl rfl)
      · next hout =>
        refine hwithin.imp_right (Or.imp_right fun hmem => ?_)
        simpa [hmem] using hout
  | expired hsame | cleaned hsame | reserved hsame | other hsame => exact absurd hstop hsame

/-- A running server keeps a new connection, and any other cancels it. -/
theorem Owned.accepting (h : s.Owned) (hkept : s.LibraryKeeps .accept)
    (hstep : s.step openssl send .accept = some next) : next.accepted = s.accepted + 1 ∧
      (if s.impl.state = .running then next.connections = s.live ++ [s.accepted]
      else (next.sockets s.accepted).cancelled = true) := by
  cases step_cases hstep with
  | accept =>
      obtain ⟨⟨⟨k, pool⟩, hpool, hopened⟩, hfree⟩ := hkept.turn
      -- A connection that the listener accepts finds room in the list.
      have hroom := h.live_length_le hpool hfree
      generalize hhandled : s.handleConnection = handled
      have hcases := handleConnection_cases s
      rw [hhandled] at hcases
      refine ⟨rfl, ?_⟩
      cases hcases with
      | refused hreason =>
          rw [if_neg (hreason.resolve_right (Nat.not_le.mpr hroom))]
          simp
      | kept hrunning => rw [if_pos hrunning]

/-- The step that requests a stop cancels what is open and not being served. -/
theorem Owned.stop_requested (h : s.Owned) {action : Action}
    (hstep : s.step openssl send action = some next) (hstop : StopRequested s.impl next.impl) {c : Nat}
    (hc : c < s.accepted) : (next.sockets c).closed = true ∨
      (next.sockets c).cancelled = true ∨ (next.sockets c).active = true := by
  cases step_cases hstep with
  | @impl action impl himpl =>
      have hfollowed := follow_cases s action impl
      rw [hfollowed.kept.impl] at hstop
      exact h.requested hfollowed hstop hc
  | @callback k pool after impl closes hpool hafter himpl =>
      have hfollowed := follow_cases s (.run k .poolShutdown) impl
      have hstop' : StopRequested s.impl impl := by
        have himpl := hfollowed.kept.impl
        simp only [Listener.afterPool] at hstop
        rwa [himpl] at hstop
      simp only [Listener.afterPool]
      split
      · exact .inl rfl
      · exact h.requested hfollowed hstop' hc
  | accept =>
      have hsame := (handleConnection_cases s).impl
      have hstill : s.handleConnection.impl.state = .stopping := hstop.2
      rw [hsame] at hstill
      exact absurd hstill hstop.1
  | createPool | pool | activity => exact absurd hstop.2 hstop.1

/-- A stopped server has neither a queue nor a connection. -/
theorem Owned.stopped (h : s.Owned) (hstate : s.impl.state = .stopped) :
    s.pool = none ∧ s.incoming = none ∧ s.connections = [] ∧
      ∀ c < s.accepted, (s.sockets c).closed = true := by
  have hended : ∀ k, s.impl.runs k = .ended := by
    intro k
    by_contra hactive
    exact (h.lifecycle.active k hactive).2.1 hstate
  have hnone : s.pool = none := by
    cases hpool : s.pool with
    | none => rfl
    | some owned => cases (h.pool owned.1 owned.2 hpool).listening.symm.trans (hended owned.1)
  refine ⟨hnone, ?_, ?_, h.closed_of_none hnone⟩
  · cases hincoming : s.incoming with
    | none => rfl
    | some c =>
        obtain ⟨-, k, pool, hpool, -⟩ := h.incoming c hincoming
        cases hnone.symm.trans hpool
  · by_contra hnonempty
    obtain ⟨k, hserving⟩ := h.serving hnonempty
    rw [hended k] at hserving
    cases hserving

/-- What a listener promises in a reachable state and about the next step, if cpp-httplib
keeps its promises. -/
structure Reaching (openssl : Bool) (send : Nat → Bool) (s : Listener) : Prop where
  located : ∀ c < s.accepted, s.Located c
  within : ∀ c < s.accepted, s.Within c
  bounded : s.connections.Nodup ∧ s.connections.length ≤ s.capacity
  accepting : ∀ next, s.LibraryKeeps .accept → s.step openssl send .accept = some next →
    next.accepted = s.accepted + 1 ∧
      (if s.impl.state = .running then next.connections = s.live ++ [s.accepted]
      else (next.sockets s.accepted).cancelled = true)
  requested : ∀ action next, s.step openssl send action = some next →
    StopRequested s.impl next.impl → ∀ c < s.accepted, (next.sockets c).closed = true ∨
      (next.sockets c).cancelled = true ∨ (next.sockets c).active = true
  expired : s.impl.graceExpired = true → ∀ c < s.accepted,
    (s.sockets c).closed = true ∨ (s.sockets c).cancelled = true
  stopped : s.impl.state = .stopped → s.pool = none ∧ s.incoming = none ∧ s.connections = [] ∧
    ∀ c < s.accepted, (s.sockets c).closed = true

/-- No connection is lost, refused for want of room or missed by a stop, in any
interleaving of the lifecycle, the accepting thread and the pool in which cpp-httplib
keeps its promises. -/
theorem connections_reached (openssl : Bool) (send : Nat → Bool) (actions : List Action)
    (hlibrary : Machine.Along (step openssl send) LibraryKeeps initial actions)
    (s : Listener) (hrun : Machine.run (step openssl send) initial actions = some s) :
    s.Reaching openssl send := by
  have h := owned_of_run hlibrary hrun
  exact {
    located := h.located
    within := h.within
    bounded := ⟨h.distinct, h.bounded⟩
    accepting := fun next hkept hstep => h.accepting hkept hstep
    requested := fun action next hstep hstop c hc => h.stop_requested hstep hstop hc
    expired := h.cancelled
    stopped := h.stopped }

/-- One thread serves a connection and another connection waits when a stop is
requested; then the grace period expires, and the first connection ends. -/
def cutOff : List Action := List.flatten
  [[.impl (.call 0 (.start { workerThreads := 1, maxQueuedConnections := 1 }))],
    List.replicate 10 (.impl (.caller 0 none)),
    [.impl (.run 0 .bind), .impl (.run 0 .publishListener), .impl (.run 0 .watched), .createPool 0,
      .pool .create [], .pool .constructed [], .impl (.run 0 .startHandler), .accept,
      .pool (.enqueue 0 .accepted none) [], .pool (.worker 0 (.take 0)) [], .activity 0 true, .accept,
      .pool (.enqueue 1 .accepted none) [], .impl (.call 1 .requestStop), .impl (.caller 1 none),
      .impl .graceExpire, .pool (.worker 0 (.finish 0 false)) [0]]]

theorem connections_reached_cutOff :
    ∃ s, Machine.run (step true fun _ => false) initial cutOff = some s ∧ s.connections = [0, 1] ∧
      s.Reaching true fun _ => false := by
  have hshape : (Machine.run (step true fun _ => false) initial cutOff).map connections =
      some [0, 1] := by rfl
  obtain ⟨s, hrun, hconnections⟩ := Option.map_eq_some_iff.mp hshape
  exact ⟨s, hrun, hconnections, connections_reached true _ cutOff (by decide) s hrun⟩

end Listener

end RttHttp.Server
