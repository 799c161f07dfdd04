import RttHttp.Server.Machine

/-! # Lifecycle invariants of the server

Every caller that changes the listener holds `Impl::control`, so at most one
program point at a time carries an assertion about the members it is about to
change. The other writers of `state` (stop requests, the network thread) keep
that assertion, because it only bounds what they may do.
-/

namespace RttHttp.Server

open Executor (OperationExecutor)

/-- Points between locking and unlocking `Impl::control`. -/
def Caller.holdsControl : Caller → Bool
  | .start _ .control => false
  | .start _ _ => true
  | .stop _ .request | .stop _ .control => false
  | .stop _ _ => true
  | .finish .control => false
  | .finish _ => true
  | _ => false

/-- Points of `start` between setting `starting` and handing over to the network
thread, including its `catch` block. -/
def Caller.opening : Caller → Bool
  | .start _ point => match point with
    | .model | .replace | .retire _ | .drain _ | .executor | .bind | .thread | .failed _ => true
    | _ => false
  | _ => false

/-- Points of `start` after its first check has passed and before its result is
decided. -/
def Caller.committed : Caller → Bool
  | .start _ point => match point with
    | .control | .guard | .returning _ => false
    | _ => true
  | _ => false

theorem Caller.holdsControl_of_opening {caller : Caller} (hopening : caller.opening = true) :
    caller.holdsControl = true := by
  cases caller with
  | start o point => cases point <;> first | rfl | cases hopening
  | _ => cases hopening

namespace Impl

/-- No listener is open or being opened. -/
def Closed (s : Impl) : Prop := s.network = none ∧ s.state = .stopped

/-- A listener is being opened; a stop request may already have come in. -/
def Opening (s : Impl) : Prop :=
  s.network = none ∧ (s.state = .starting ∨ s.state = .stopping)

/-- Nothing opens a listener any more: no start is about to, and a new one is refused. -/
structure Barred (s : Impl) : Prop where
  network : s.network = none
  state : s.state ≠ .running
  refused : s.state = .stopped → s.finalShutdown = true
  committed : ∀ c, (s.callers c).committed = false

/-- Final shutdown has passed its `stop`. -/
structure Settled (s : Impl) : Prop extends s.Barred where
  final : s.finalShutdown = true

/-- An exception has left `start`, and nothing takes the server out of the state that it
left behind. -/
structure Abandoned (s : Impl) : Prop extends s.Barred where
  unstopped : s.state ≠ .stopped

/-- The server is stopped, or some thread answers for it. -/
def Answered (s : Impl) : Prop :=
  s.state = .stopped ∨ (∃ k, s.runs k ≠ .ended) ∨ ∃ c, (s.callers c).opening = true

/-- What holds at each point of `start`. -/
def StartAssertion (s : Impl) : Starting → Prop
  | .join => s.state = .stopped
  | .validate | .install => s.Closed
  | .model | .failed _ => s.Opening
  | .replace => s.Opening ∧ s.model.isSome
  | .retire _ | .drain _ | .executor => s.Opening ∧ s.model.isSome ∧ s.executor = none
  | .bind | .thread => s.Opening ∧ s.model.isSome ∧ s.executor.isSome
  | .control | .guard | .wait | .returning _ => True

/-- What holds at each point of a caller. -/
def Assertion (s : Impl) : Caller → Prop
  | .start _ point => s.StartAssertion point
  | .stop final point =>
      (final = true → s.finalShutdown = true) ∧
        (point matches .joined → s.Closed ∨ s.Abandoned)
  | .finish point =>
      s.Settled ∧ (match point with | .control | .move => True | _ => s.executor = none)
  | _ => True

structure Lifecycle (s : Impl) : Prop where
  control : ∀ c, s.control = some c ↔ (s.callers c).holdsControl = true
  assertion : ∀ c, s.Assertion (s.callers c)
  active : ∀ k, s.runs k ≠ .ended →
    s.network = some k ∧ s.state ≠ .stopped ∧ s.model.isSome ∧ s.executor.isSome
  quiet : s.Answered ∨ s.Abandoned
  final : s.finalShutdown = true → s.state ≠ .running

theorem lifecycle_initial : Lifecycle initial where
  control c := by simp [initial, Caller.holdsControl]
  assertion c := trivial
  active k hactive := absurd rfl hactive
  quiet := .inl (.inl rfl)
  final hfinal := by cases hfinal

variable {openssl : Bool} {send : Nat → Bool} {s next : Impl} {action : Action}

/-- Only one caller at a time is inside the lock. -/
theorem Lifecycle.holder_unique {c other : Nat} (h : s.Lifecycle)
    (hc : (s.callers c).holdsControl = true) (hother : (s.callers other).holdsControl = true) :
    other = c := by
  have hmine := (h.control c).mpr hc
  rw [(h.control other).mpr hother, Option.some.injEq] at hmine
  exact hmine

theorem Lifecycle.ended_of_network (h : s.Lifecycle) (hnetwork : s.network = none) (k : Nat) :
    s.runs k = .ended := by
  by_contra hactive
  have hsome := (h.active k hactive).1
  rw [hnetwork] at hsome
  cases hsome

/-- How a server that opens no listener may change. -/
structure Rests (s next : Impl) : Prop where
  network : next.network = none
  state : next.state = s.state ∨ s.state = .starting ∧ next.state = .stopping
  final : s.finalShutdown = true → next.finalShutdown = true

theorem Rests.stopped (h : Rests s next) : next.state = .stopped ↔ s.state = .stopped := by
  rcases h.state with hsame | ⟨hbefore, hafter⟩
  · rw [hsame]
  · simp [hbefore, hafter]

/-- Moving one caller to a point outside the committed part of `start` keeps the
rest of the server barred. -/
theorem Barred.move {c : Nat} {caller : Caller} (hs : s.Barred) (h : Rests s next)
    (hcallers : next.callers = Function.update s.callers c caller)
    (hcaller : caller.committed = false) : next.Barred := by
  refine ⟨h.network, fun hrunning => ?_, fun hstopped => h.final (hs.refused (h.stopped.mp hstopped)),
    fun other => ?_⟩
  · rcases h.state with hsame | ⟨-, hafter⟩
    · exact hs.state (hsame ▸ hrunning)
    · rw [hrunning] at hafter
      cases hafter
  · rw [hcallers]
    by_cases hother : other = c
    · rw [hother, Function.update_self]
      exact hcaller
    · rw [Function.update_of_ne hother]
      exact hs.committed other

theorem state_requestStop (s : Impl) (hstate : s.state ≠ .running) :
    s.requestStopLocked.state = s.state ∨
      s.state = .starting ∧ s.requestStopLocked.state = .stopping := by
  unfold requestStopLocked
  cases hnow : s.state <;> simp_all

/-- A barred server stays barred, and does not stop any more unless it has. -/
theorem Barred.step (h : s.Lifecycle) (hs : s.Barred) (hstep : Step openssl send s action next) :
    next.Barred ∧ Rests s next := by
  have hsame : Rests s next → ∀ {c caller},
      next.callers = Function.update s.callers c caller → caller.committed = false →
        next.Barred ∧ Rests s next :=
    fun hrests _ _ hcallers hcaller => ⟨hs.move hrests hcallers hcaller, hrests⟩
  have hstopping := state_requestStop s hs.state
  cases hstep with
  | @call c operation => exact hsame ⟨hs.network, .inl rfl, id⟩ rfl (by cases operation <;> rfl)
  | @start c o point _ _ hpc hpoint hescaped =>
      have hfree := hs.committed c
      rw [hpc] at hfree
      clear hescaped
      cases hpoint
      case control => exact hsame ⟨hs.network, .inl rfl, id⟩ rfl rfl
      case guardError => exact hsame ⟨hs.network, .inl rfl, id⟩ rfl rfl
      case guardRunning _ hrunning => exact absurd hrunning hs.state
      case guard hopen hstopped => simp [hs.refused hstopped] at hopen
      case returning => exact hsame ⟨hs.network, .inl rfl, id⟩ rfl rfl
      case failure hpoint => rcases hpoint with rfl | rfl | rfl | rfl <;> cases hfree
      all_goals cases hfree
  | requesting => exact hsame ⟨hs.network, hstopping, id⟩ rfl rfl
  | @stop c final point _ hpc hpoint =>
      cases hpoint
      case joined => exact hsame ⟨hs.network, .inl rfl, id⟩ rfl (by cases final <;> rfl)
      case join => exact hsame ⟨rfl, .inl rfl, id⟩ rfl rfl
      case control => exact hsame ⟨hs.network, .inl rfl, id⟩ rfl rfl
      all_goals exact hsame ⟨hs.network, hstopping, id⟩ rfl rfl
  | @beginning c final =>
      exact hsame ⟨hs.network, hstopping, fun _ => rfl⟩ rfl (by cases final <;> rfl)
  | finish hpc hpoint => cases hpoint <;> exact hsame ⟨hs.network, .inl rfl, id⟩ rfl rfl
  | @run k _ _ hrun =>
      have hended := h.ended_of_network hs.network k
      cases hrun with
      | refused => exact ⟨hs, hs.network, .inl rfl, id⟩
      | _ => simp_all
  | graceExpire | admission | executor =>
      exact ⟨⟨hs.network, hs.state, hs.refused, hs.committed⟩, hs.network, .inl rfl, id⟩

/-- What nothing undoes. -/
structure Keeps (s next : Impl) : Prop where
  settled : s.Settled → next.Settled
  abandoned : s.Abandoned → next.Abandoned

theorem Lifecycle.keeps (h : s.Lifecycle) (hstep : Step openssl send s action next) :
    Keeps s next where
  settled hs := by
    obtain ⟨hbarred, hrests⟩ := hs.toBarred.step h hstep
    exact ⟨hbarred, hrests.final hs.final⟩
  abandoned hs := by
    obtain ⟨hbarred, hrests⟩ := hs.toBarred.step h hstep
    exact ⟨hbarred, mt hrests.stopped.mp hs.unstopped⟩

/-- A caller without the lock asserts nothing about what the lock protects. -/
theorem assertion_of_free {caller : Caller} (hassert : s.Assertion caller)
    (hfree : caller.holdsControl = false) (hfinal : s.finalShutdown = true → next.finalShutdown = true)
    (hkeeps : Keeps s next) : next.Assertion caller := by
  cases caller with
  | start o point => cases point <;> trivial
  | stop final point =>
      refine ⟨fun h => hfinal (hassert.1 h), ?_⟩
      cases point <;> first | (cases hfree; done) | (intro h; cases h)
  | finish point =>
      cases point <;> first | exact ⟨hkeeps.settled hassert.1, trivial⟩ | cases hfree
  | _ => trivial

/-- A step of another thread that leaves the listener's resources alone. -/
structure Frame (s next : Impl) : Prop where
  network : next.network = s.network
  model : next.model = s.model
  executor : next.executor = s.executor
  stopped : s.state = .stopped → next.state = .stopped
  opening : s.Opening → next.state = .starting ∨ next.state = .stopping

theorem Frame.assertion {caller : Caller} (hframe : Frame s next) (hassert : s.Assertion caller)
    (hfinal : s.finalShutdown = true → next.finalShutdown = true)
    (hkeeps : Keeps s next) : next.Assertion caller := by
  have hclosed : s.Closed → next.Closed := fun h =>
    ⟨hframe.network.trans h.1, hframe.stopped h.2⟩
  have hopening : s.Opening → next.Opening := fun h =>
    ⟨hframe.network.trans h.1, hframe.opening h⟩
  cases caller with
  | start o point =>
      simp only [Assertion] at hassert ⊢
      cases point <;>
        simp only [StartAssertion, hframe.model, hframe.executor] at hassert ⊢ <;>
        first
          | exact hframe.stopped hassert
          | exact hclosed hassert
          | exact hopening hassert
          | exact ⟨hopening hassert.1, hassert.2⟩
  | stop final point =>
      exact ⟨fun h => hfinal (hassert.1 h), fun h => (hassert.2 h).imp hclosed hkeeps.abandoned⟩
  | finish point =>
      refine ⟨hkeeps.settled hassert.1, ?_⟩
      cases point <;> first | trivial | exact hframe.executor.trans hassert.2
  | _ => trivial

/-- A caller has moved. Either it holds the lock, so that the others are free,
or it left the listener's resources alone. -/
theorem Lifecycle.assertion_move {c : Nat} {caller : Caller} (h : s.Lifecycle)
    (hcallers : next.callers = Function.update s.callers c caller)
    (hself : next.Assertion caller) (hothers : s.control = some c ∨ Frame s next)
    (hfinal : s.finalShutdown = true → next.finalShutdown = true)
    (hkeeps : Keeps s next) : ∀ other, next.Assertion (next.callers other) := by
  intro other
  rw [hcallers]
  by_cases hother : other = c
  · rw [hother, Function.update_self]
    exact hself
  · rw [Function.update_of_ne hother]
    rcases hothers with hcontrol | hframe
    · refine assertion_of_free (h.assertion other) ?_ hfinal hkeeps
      have hfree := mt (h.control other).mpr
      simp only [hcontrol, Option.some.injEq, Bool.not_eq_true] at hfree
      exact hfree (Ne.symm hother)
    · exact hframe.assertion (h.assertion other) hfinal hkeeps

theorem finalShutdown_mono (hstep : Step openssl send s action next)
    (hfinal : s.finalShutdown = true) : next.finalShutdown = true := by
  cases hstep with
  | start _ hpoint => cases hpoint <;> exact hfinal
  | stop _ hpoint => cases hpoint <;> exact hfinal
  | finish _ hpoint => cases hpoint <;> exact hfinal
  | run hrun => cases hrun <;> exact hfinal
  | beginning => rfl
  | _ => exact hfinal

/-! ### Who answers for a server that is not stopped -/

/-- A caller has moved. The server is still stopped, or somebody answers for it. -/
theorem Answered.move {c : Nat} {caller : Caller} (h : s.Answered)
    (hcallers : next.callers = Function.update s.callers c caller)
    (hruns : ∀ k, s.runs k ≠ .ended → next.runs k ≠ .ended)
    (hself : next.state = .stopped ∨ (∃ k, next.runs k ≠ .ended) ∨ caller.opening = true ∨
      (s.callers c).opening = false ∧ (s.state = .stopped → next.state = .stopped)) :
    next.Answered := by
  rcases hself with hstate | hactive | hopening | ⟨hclosed, hstate⟩
  · exact .inl hstate
  · exact .inr (.inl hactive)
  · exact .inr (.inr ⟨c, by rw [hcallers, Function.update_self]; exact hopening⟩)
  · rcases h with hstopped | ⟨k, hactive⟩ | ⟨other, hopening⟩
    · exact .inl (hstate hstopped)
    · exact .inr (.inl ⟨k, hruns k hactive⟩)
    · refine .inr (.inr ⟨other, ?_⟩)
      have hother : other ≠ c := by
        rintro rfl
        rw [hclosed] at hopening
        cases hopening
      rw [hcallers, Function.update_of_ne hother]
      exact hopening

theorem Answered.start {c : Nat} {o : ServerOptions} {point : Starting} (h : s.Answered)
    (hpc : s.callers c = .start o point) (hstep : StartStep openssl send s c o point next)
    (hinside : next.callers c ≠ .escaped) : next.Answered := by
  cases hstep
  case thread => exact .inr (.inl ⟨s.spawned, by simp⟩)
  case escape => simp at hinside
  all_goals refine h.move rfl ?_ ?_
  all_goals grind [Caller.opening, setCaller]

theorem Answered.run {k : Nat} (h : s.Answered) (hstep : RunStep s k next) : next.Answered := by
  have hstopped : s.state = .stopped → s.requestStopLocked.state = .stopped := fun hstate => by
    simp [requestStopLocked, hstate]
  cases hstep with
  | finish => exact .inl rfl
  | refused => exact h
  | advance _ hpoint => exact .inr (.inl ⟨k, by simpa using hpoint⟩)
  | caught => exact .inr (.inl ⟨k, by simp⟩)
  | startHandler hpc => exact .inr (.inl ⟨k, by simp [hpc]⟩)
  | poolShutdown hpc => exact .inr (.inl ⟨k, by simp [hpc, requestStopLocked]⟩)

/-- Somebody answers for the server as long as no exception leaves `start`. -/
theorem Answered.step (h : s.Answered) (hstep : Step openssl send s action next)
    (hinside : ∀ c, action ≠ .caller c (some .other)) : next.Answered := by
  have hstopped : ∀ final, s.state = .stopped →
      ({ s with finalShutdown := final }.requestStopLocked).state = .stopped := fun final hstate => by
    simp [requestStopLocked, hstate]
  -- A caller that was opening no listener has moved.
  have hmove : ∀ {c caller}, next.callers = Function.update s.callers c caller →
      (s.callers c).opening = false → (∀ k, s.runs k ≠ .ended → next.runs k ≠ .ended) →
      (s.state = .stopped → next.state = .stopped) → next.Answered :=
    fun hcallers hclosed hruns hstate => h.move hcallers hruns (.inr (.inr (.inr ⟨hclosed, hstate⟩)))
  cases hstep with
  | @call c operation hpc =>
      refine hmove rfl ?_ (fun _ hk => hk) id
      cases hcaller : s.callers c with
      | start => simp [hcaller, Caller.returned] at hpc
      | _ => rfl
  | @start c o point fault _ hpc hpoint hescaped =>
      exact h.start hpc hpoint fun hnow => hinside c (by rw [hescaped.mpr hnow])
  | requesting hpc => exact hmove rfl (by rw [hpc]; rfl) (fun _ hk => hk) (hstopped _)
  | beginning hpc => exact hmove rfl (by rw [hpc]; rfl) (fun _ hk => hk) (hstopped _)
  | stop hpc hpoint =>
      cases hpoint with
      | request | again => exact hmove rfl (by rw [hpc]; rfl) (fun _ hk => hk) (hstopped _)
      | _ => exact hmove rfl (by rw [hpc]; rfl) (fun _ hk => hk) id
  | finish hpc hpoint =>
      cases hpoint <;> exact hmove rfl (by rw [hpc]; rfl) (fun _ hk => hk) id
  | run hrun => exact h.run hrun
  | graceExpire | admission | executor => exact h

theorem holdsControl_of_committed {caller : Caller} (hcommitted : caller.committed = true) :
    caller.holdsControl = true := by
  cases caller with
  | start o point => cases point <;> first | rfl | cases hcommitted
  | _ => cases hcommitted

/-- The caller that holds the lock is the only one that may be committed. -/
theorem Lifecycle.committed_of_holder {c : Nat} (h : s.Lifecycle) (hcontrol : s.control = some c)
    {other : Nat} (hother : other ≠ c) : (s.callers other).committed = false := by
  by_contra hcommitted
  have hholds : (s.callers other).holdsControl = true :=
    holdsControl_of_committed (by simpa using hcommitted)
  exact hother (h.holder_unique ((h.control c).mp hcontrol) hholds)

/-- An exception leaves `start` while a listener is being opened. -/
theorem Lifecycle.escape {c : Nat} (h : s.Lifecycle)
    (hstep : Step openssl send s (.caller c (some .other)) next) : next.Abandoned := by
  cases hstep with
  | start hpc hpoint hescaped =>
      have hassert := h.assertion c
      have hholds := (h.control c).mpr
      rw [hpc] at hassert hholds
      have hnow := hescaped.mp rfl
      cases hpoint
      -- No other section lets such an exception out.
      case escape =>
        obtain ⟨hnetwork, hstate⟩ := hassert
        have hunstopped : s.state ≠ .stopped := by
          rcases hstate with hstate | hstate <;> simp [hstate]
        refine ⟨⟨hnetwork, ?_, fun hstopped => absurd hstopped hunstopped, fun other => ?_⟩, hunstopped⟩
        · change s.state ≠ .running
          rcases hstate with hstate | hstate <;> simp [hstate]
        · change (Function.update s.callers c .escaped other).committed = false
          by_cases hother : other = c
          · rw [hother, Function.update_self]
            rfl
          · rw [Function.update_of_ne hother]
            exact h.committed_of_holder (hholds rfl) hother
      all_goals simp at hnow

theorem Lifecycle.quiet_step (h : s.Lifecycle) (hstep : Step openssl send s action next) :
    next.Answered ∨ next.Abandoned := by
  rcases h.quiet with hanswered | habandoned
  · by_cases hinside : ∀ c, action ≠ .caller c (some .other)
    · exact .inl (hanswered.step hstep hinside)
    · obtain ⟨c, hescape⟩ := not_forall_not.mp hinside
      subst hescape
      exact .inr (h.escape hstep)
  · exact .inr ((h.keeps hstep).abandoned habandoned)

section Start

variable {c : Nat} {o : ServerOptions} {point : Starting}

theorem Lifecycle.start_control (h : s.Lifecycle) (hpc : s.callers c = .start o point)
    (hstep : StartStep openssl send s c o point next) (other : Nat) :
    next.control = some other ↔ (next.callers other).holdsControl = true := by
  have hcontrol := h.control
  cases hstep <;> simp only [setCaller, setRun] <;> grind [Caller.holdsControl]

/-- Each step of `start` establishes the assertion of its next point. -/
theorem Lifecycle.start_assertion (h : s.Lifecycle) (hpc : s.callers c = .start o point)
    (hstep : StartStep openssl send s c o point next) (hkeeps : Keeps s next)
    (other : Nat) : next.Assertion (next.callers other) := by
  have hassert := h.assertion c
  have hholds := (h.control c).mpr
  rw [hpc] at hassert hholds
  revert other
  cases hstep with
  | control hfree =>
      exact h.assertion_move rfl trivial (.inr ⟨rfl, rfl, rfl, id, And.right⟩) id hkeeps
  | guardError | guardRunning | invalid | conflict | stopped | running | interrupted | failed
  | returning | escape =>
      exact h.assertion_move rfl trivial (.inl (hholds rfl)) id hkeeps
  | thread => exact h.assertion_move rfl trivial (.inl (hholds rfl)) id hkeeps
  | guard hopen hstate => exact h.assertion_move rfl hstate (.inl (hholds rfl)) id hkeeps
  | join hended => exact h.assertion_move rfl ⟨rfl, hassert⟩ (.inl (hholds rfl)) id hkeeps
  | validate | bind => exact h.assertion_move rfl hassert (.inl (hholds rfl)) id hkeeps
  | install =>
      exact h.assertion_move rfl ⟨hassert.1, .inl rfl⟩ (.inl (hholds rfl)) id hkeeps
  | keepModel hmodel =>
      exact h.assertion_move rfl ⟨hassert, hmodel⟩ (.inl (hholds rfl)) id hkeeps
  | model => exact h.assertion_move rfl ⟨hassert, rfl⟩ (.inl (hholds rfl)) id hkeeps
  | failure hpoint =>
      have hopening : s.Opening := by
        rcases hpoint with rfl | rfl | rfl | rfl
        · exact hassert
        all_goals exact hassert.1
      refine h.assertion_move rfl hopening (.inl (hholds ?_)) id hkeeps
      rcases hpoint with rfl | rfl | rfl | rfl <;> rfl
  | noExecutor hexecutor =>
      exact h.assertion_move rfl ⟨hassert.1, hassert.2, hexecutor⟩ (.inl (hholds rfl)) id hkeeps
  | keepExecutor hexecutor =>
      exact h.assertion_move rfl ⟨hassert.1, hassert.2, by simp [hexecutor]⟩ (.inl (hholds rfl)) id
        hkeeps
  | replace =>
      exact h.assertion_move rfl ⟨hassert.1, hassert.2, rfl⟩ (.inl (hholds rfl)) id hkeeps
  | retire | drain => exact h.assertion_move rfl hassert (.inl (hholds rfl)) id hkeeps
  | executor =>
      exact h.assertion_move rfl ⟨hassert.1, hassert.2.1, rfl⟩ (.inl (hholds rfl)) id hkeeps

/-- While a listener is being opened no network thread runs. -/
theorem Lifecycle.start_active (h : s.Lifecycle) (hpc : s.callers c = .start o point)
    (hstep : StartStep openssl send s c o point next) (k : Nat) (hk : next.runs k ≠ .ended) :
    next.network = some k ∧ next.state ≠ .stopped ∧ next.model.isSome ∧ next.executor.isSome := by
  have hassert := h.assertion c
  have hactive := h.active
  have hended := h.ended_of_network
  rw [hpc] at hassert
  cases hstep
  case thread =>
    obtain ⟨⟨hnetwork, hstate⟩, hmodel, hexecutor⟩ := hassert
    have hself : k = s.spawned := by
      by_contra hne
      simp [Function.update_of_ne hne, hended hnetwork k] at hk
    refine ⟨by simp [hself], ?_, hmodel, hexecutor⟩
    rcases hstate with hstate | hstate <;> simp [hstate]
  all_goals simp only [setCaller] at hk ⊢
  all_goals grind [Assertion, StartAssertion, Closed, Opening, Option.isSome]

/-- A step of `start`. -/
theorem Lifecycle.start (h : s.Lifecycle) (hpc : s.callers c = .start o point)
    (hstep : StartStep openssl send s c o point next) (hkeeps : Keeps s next)
    (hquiet : next.Answered ∨ next.Abandoned) : next.Lifecycle := by
  refine ⟨h.start_control hpc hstep, h.start_assertion hpc hstep hkeeps,
    h.start_active hpc hstep, hquiet, fun hfinal => ?_⟩
  have hold := h.final
  cases hstep
  case install => simp
  case stopped => simp
  case failed => simp
  all_goals exact hold hfinal

end Start

/-- A caller that neither locks nor unlocks `Impl::control`. -/
theorem Lifecycle.control_move {c : Nat} {caller : Caller} (h : s.Lifecycle)
    (hcontrol : next.control = s.control)
    (hcallers : next.callers = Function.update s.callers c caller)
    (hholds : caller.holdsControl = (s.callers c).holdsControl) (other : Nat) :
    next.control = some other ↔ (next.callers other).holdsControl = true := by
  rw [hcontrol, hcallers]
  by_cases hother : other = c
  · rw [hother, Function.update_self, hholds]
    exact h.control c
  · rw [Function.update_of_ne hother]
    exact h.control other

/-- A stop request leaves everything but `state` alone. -/
theorem frame_requestStop {c : Nat} {caller : Caller} {final : Bool} :
    Frame s ({ s with finalShutdown := final }.requestStopLocked.setCaller c caller) where
  network := rfl
  model := rfl
  executor := rfl
  stopped hstopped := by simp [requestStopLocked, hstopped]
  opening hopening := by
    rcases hopening.2 with h | h <;> simp [requestStopLocked, h]

/-- A caller requests a stop, and may announce final shutdown. -/
theorem Lifecycle.request {c : Nat} {caller : Caller} {final : Bool} (h : s.Lifecycle)
    (hholds : caller.holdsControl = (s.callers c).holdsControl)
    (hself : ({ s with finalShutdown := final }.requestStopLocked.setCaller c caller).Assertion
      caller)
    (hfinal : s.finalShutdown = true → final = true)
    (hkeeps : Keeps s ({ s with finalShutdown := final }.requestStopLocked.setCaller c caller))
    (hquiet : ({ s with finalShutdown := final }.requestStopLocked.setCaller c caller).Answered ∨
      ({ s with finalShutdown := final }.requestStopLocked.setCaller c caller).Abandoned) :
    ({ s with finalShutdown := final }.requestStopLocked.setCaller c caller).Lifecycle where
  control := h.control_move rfl rfl hholds
  assertion := h.assertion_move rfl hself (.inr frame_requestStop) hfinal hkeeps
  active k hk := by
    obtain ⟨hnetwork, hstate, hresources⟩ := h.active k hk
    refine ⟨hnetwork, ?_, hresources⟩
    simp only [setCaller, requestStopLocked]
    split
    · exact hstate
    · simp
  quiet := hquiet
  final _ := by
    simp only [setCaller, requestStopLocked]
    split
    next hstate => rcases hstate with hstate | hstate <;> simp [hstate]
    next => simp

/-- Who holds the lock after the holder, or the one that locks, has moved. -/
theorem Lifecycle.control_hold {c : Nat} {caller : Caller} (h : s.Lifecycle)
    (hcontrol : s.control = none ∨ s.control = some c)
    (hnext : next.control = if caller.holdsControl then some c else none)
    (hcallers : next.callers = Function.update s.callers c caller) (other : Nat) :
    next.control = some other ↔ (next.callers other).holdsControl = true := by
  rw [hnext, hcallers]
  by_cases hother : other = c
  · rw [hother, Function.update_self]
    split <;> simp [*]
  · rw [Function.update_of_ne hother, ← h.control other]
    rcases hcontrol with hcontrol | hcontrol <;> rw [hcontrol] <;> split <;>
      simp [Ne.symm hother]

/-- No listener can be opening while another thread holds the lock. -/
theorem Lifecycle.closed_of_joined {c : Nat} (h : s.Lifecycle) (hcontrol : s.control = some c)
    (hopening : (s.callers c).opening = false)
    (hended : ∀ k, s.network = some k → s.runs k = .ended) : s.state = .stopped ∨ s.Abandoned := by
  rcases h.quiet with (hstopped | ⟨k, hactive⟩ | ⟨other, hother⟩) | habandoned
  · exact .inl hstopped
  · exact absurd (hended k (h.active k hactive).1) hactive
  · have hholds : (s.callers other).holdsControl = true := Caller.holdsControl_of_opening hother
    obtain rfl := h.holder_unique ((h.control c).mp hcontrol) hholds
    rw [hother] at hopening
    cases hopening
  · exact .inr habandoned

/-- `stop` has joined the network thread for `finishShutdown`. -/
theorem Lifecycle.settled_of_joined {c : Nat} (h : s.Lifecycle) (hcontrol : s.control = some c)
    (hcommitted : (s.callers c).committed = false) (hclosed : s.Closed ∨ s.Abandoned)
    (hfinal : s.finalShutdown = true) : s.Settled := by
  rcases hclosed with ⟨hnetwork, hstate⟩ | habandoned
  · refine ⟨⟨hnetwork, by simp [hstate], fun _ => hfinal, fun other => ?_⟩, hfinal⟩
    by_cases hother : other = c
    · rw [hother, hcommitted]
    · exact h.committed_of_holder hcontrol hother
  · exact ⟨habandoned.toBarred, hfinal⟩

theorem Lifecycle.stop {c : Nat} {final : Bool} {point : Stopping} (h : s.Lifecycle)
    (hpc : s.callers c = .stop final point) (hstep : StopStep s c final point next)
    (hkeeps : Keeps s next) (hquiet : next.Answered ∨ next.Abandoned) : next.Lifecycle := by
  have hassert := h.assertion c
  have hholds := (h.control c).mpr
  have hopening : (s.callers c).opening = false := by rw [hpc]; rfl
  rw [hpc] at hassert hholds
  cases hstep with
  | request =>
      exact h.request (by rw [hpc]; rfl) ⟨hassert.1, fun h => by cases h⟩ id hkeeps hquiet
  | again =>
      exact h.request (by rw [hpc]; rfl) ⟨hassert.1, fun h => by cases h⟩ id hkeeps hquiet
  | control hfree =>
      exact {
        control := h.control_hold (.inl hfree) rfl rfl
        assertion := h.assertion_move rfl ⟨hassert.1, fun h => by cases h⟩
          (.inr ⟨rfl, rfl, rfl, id, And.right⟩) id hkeeps
        active := h.active
        quiet := hquiet
        final := h.final }
  | join hended =>
      have hjoined := h.closed_of_joined (hholds rfl) hopening hended
      exact {
        control := h.control_move rfl rfl (by rw [hpc]; rfl)
        assertion := h.assertion_move rfl ⟨hassert.1, fun _ =>
            hjoined.imp (fun hstopped => ⟨rfl, hstopped⟩) hkeeps.abandoned⟩
          (.inl (hholds rfl)) id hkeeps
        active := fun k hk => absurd (hended k (h.active k hk).1) hk
        quiet := hquiet
        final := h.final }
  | joined =>
      have hclosed : s.Closed ∨ s.Abandoned := hassert.2 rfl
      have hself : ({ s with control := none }.setCaller c
          (if final then .finish .control else .finished)).Assertion
          (if final then .finish .control else .finished) := by
        cases final with
        | false => trivial
        | true =>
            have hs := h.settled_of_joined (hholds rfl) (by rw [hpc]; rfl) hclosed (hassert.1 rfl)
            exact ⟨hkeeps.settled hs, trivial⟩
      exact {
        control := h.control_hold (.inr (hholds rfl)) (by cases final <;> rfl) rfl
        assertion := h.assertion_move rfl hself (.inl (hholds rfl)) id hkeeps
        active := h.active
        quiet := hquiet
        final := h.final }

theorem Lifecycle.finish {c : Nat} {point : Finishing} (h : s.Lifecycle)
    (hpc : s.callers c = .finish point) (hstep : FinishStep s c point next)
    (hkeeps : Keeps s next) (hquiet : next.Answered ∨ next.Abandoned) : next.Lifecycle := by
  have hassert := h.assertion c
  have hholds := (h.control c).mpr
  rw [hpc] at hassert hholds
  obtain ⟨hs, hexecutor⟩ := hassert
  have hended := h.ended_of_network hs.network
  have hnext := hkeeps.settled hs
  cases hstep with
  | control hfree =>
      exact {
        control := h.control_hold (.inl hfree) rfl rfl
        assertion := h.assertion_move rfl ⟨hnext, trivial⟩
          (.inr ⟨rfl, rfl, rfl, id, And.right⟩) id hkeeps
        active := h.active
        quiet := hquiet
        final := h.final }
  | returning =>
      exact {
        control := h.control_hold (.inr (hholds rfl)) rfl rfl
        assertion := h.assertion_move rfl trivial (.inl (hholds rfl)) id hkeeps
        active := h.active
        quiet := hquiet
        final := h.final }
  | noExecutor hnone =>
      exact {
        control := h.control_move rfl rfl (by rw [hpc]; rfl)
        assertion := h.assertion_move rfl ⟨hnext, hnone⟩ (.inl (hholds rfl)) id hkeeps
        active := h.active
        quiet := hquiet
        final := h.final }
  | move =>
      exact {
        control := h.control_move rfl rfl (by rw [hpc]; rfl)
        assertion := h.assertion_move rfl ⟨hnext, rfl⟩ (.inl (hholds rfl)) id hkeeps
        active := fun k hk => absurd (hended k) hk
        quiet := hquiet
        final := h.final }
  | retire | drain | model =>
      exact {
        control := h.control_move rfl rfl (by rw [hpc]; rfl)
        assertion := h.assertion_move rfl ⟨hnext, hexecutor⟩ (.inl (hholds rfl)) id hkeeps
        active := fun k hk => absurd (hended k) hk
        quiet := hquiet
        final := h.final }

/-- No caller has moved. -/
theorem Lifecycle.assertion_stay (h : s.Lifecycle) (hcallers : next.callers = s.callers)
    (hframe : Frame s next) (hfinal : s.finalShutdown = true → next.finalShutdown = true)
    (hkeeps : Keeps s next) (c : Nat) : next.Assertion (next.callers c) := by
  rw [hcallers]
  exact hframe.assertion (h.assertion c) hfinal hkeeps

theorem Lifecycle.run_frame {k : Nat} (h : s.Lifecycle) (hstep : RunStep s k next) :
    Frame s next := by
  have hrequest : s.Opening →
      s.requestStopLocked.state = .starting ∨ s.requestStopLocked.state = .stopping := by
    intro hopening
    rcases hopening.2 with hstate | hstate <;> simp [requestStopLocked, hstate]
  have hstopped : s.state = .stopped → s.requestStopLocked.state = .stopped := fun hstate => by
    simp [requestStopLocked, hstate]
  cases hstep with
  | advance | refused => exact ⟨rfl, rfl, rfl, id, And.right⟩
  | poolShutdown | caught => exact ⟨rfl, rfl, rfl, hstopped, hrequest⟩
  | startHandler hpc hstate =>
      refine ⟨rfl, rfl, rfl, fun hstopped => ?_, fun hopening => ?_⟩
      · rw [hstate] at hstopped
        cases hstopped
      · rw [h.ended_of_network hopening.1 k] at hpc
        cases hpc
  | finish hpc =>
      refine ⟨rfl, rfl, rfl, fun _ => rfl, fun hopening => ?_⟩
      rw [h.ended_of_network hopening.1 k] at hpc
      cases hpc

/-- The network thread stays the only activation, and ends with `stopped`. -/
theorem Lifecycle.run_active {k : Nat} (h : s.Lifecycle) (hstep : RunStep s k next) (other : Nat)
    (hother : next.runs other ≠ .ended) :
    s.runs other ≠ .ended ∧ next.state ≠ .stopped := by
  have hstate : ∀ j, s.runs j ≠ .ended → s.requestStopLocked.state ≠ .stopped := fun j hj => by
    have := (h.active j hj).2.1
    simp only [requestStopLocked]
    split <;> simp_all
  cases hstep with
  | advance hactive hpoint =>
      have hold : s.runs other ≠ .ended := by
        by_cases hk : other = k
        · exact hk ▸ hactive
        · simpa [Function.update_of_ne hk] using hother
      exact ⟨hold, (h.active other hold).2.1⟩
  | refused => exact ⟨hother, (h.active other hother).2.1⟩
  | startHandler => exact ⟨hother, by simp⟩
  | poolShutdown => exact ⟨hother, hstate other hother⟩
  | caught hpc =>
      have hold : s.runs other ≠ .ended := by
        by_cases hk : other = k
        · simp [hk, hpc]
        · simpa [Function.update_of_ne hk, requestStopLocked] using hother
      exact ⟨hold, hstate other hold⟩
  | finish hpc =>
      exfalso
      by_cases hk : other = k
      · simp [hk] at hother
      · simp only [setRun, Function.update_of_ne hk] at hother
        have hnetwork := (h.active k (by simp [hpc])).1
        rw [(h.active other hother).1, Option.some.injEq] at hnetwork
        exact hk hnetwork

theorem Lifecycle.run {k : Nat} (h : s.Lifecycle) (hstep : RunStep s k next)
    (hkeeps : Keeps s next) (hquiet : next.Answered ∨ next.Abandoned) : next.Lifecycle := by
  have hframe := h.run_frame hstep
  have hcallers : next.callers = s.callers := by cases hstep <;> rfl
  have hcontrol : next.control = s.control := by cases hstep <;> rfl
  have hfinal : next.finalShutdown = s.finalShutdown := by cases hstep <;> rfl
  refine {
    control := by rw [hcallers, hcontrol]; exact h.control
    assertion := h.assertion_stay hcallers hframe (by rw [hfinal]; exact id) hkeeps
    active := fun other hother => ?_
    quiet := hquiet
    final := fun hset => ?_ }
  · obtain ⟨hold, hstate⟩ := h.run_active hstep other hother
    rw [hframe.network, hframe.model, hframe.executor]
    exact ⟨(h.active other hold).1, hstate, (h.active other hold).2.2⟩
  · rw [hfinal] at hset
    have hold := h.final hset
    cases hstep with
    | startHandler _ _ hopen => simp [hset] at hopen
    | finish => simp
    | advance | refused => exact hold
    | poolShutdown | caught =>
        simp only [setRun, requestStopLocked]
        split <;> simp [hold]

/-- Every step keeps the lifecycle invariant. -/
theorem Lifecycle.step (h : s.Lifecycle) (hstep : Step openssl send s action next) :
    next.Lifecycle := by
  have hkeeps := h.keeps hstep
  have hquiet := h.quiet_step hstep
  cases hstep with
  | @call c operation hpc =>
      have hfree : (s.callers c).holdsControl = false := by
        cases hcaller : s.callers c <;> simp [hcaller, Caller.returned, Caller.holdsControl] at hpc ⊢
      exact {
        control := h.control_move rfl rfl (by rw [hfree]; cases operation <;> rfl)
        assertion := h.assertion_move rfl
          (by cases operation <;> simp [Operation.entry, Assertion, StartAssertion])
          (.inr ⟨rfl, rfl, rfl, id, And.right⟩) id hkeeps
        active := h.active
        quiet := hquiet
        final := h.final }
  | start hpc hpoint => exact h.start hpc hpoint hkeeps hquiet
  | requesting hpc => exact h.request (by rw [hpc]; rfl) trivial id hkeeps hquiet
  | stop hpc hpoint => exact h.stop hpc hpoint hkeeps hquiet
  | @beginning c final hpc =>
      refine h.request (by rw [hpc]; cases final <;> rfl) ?_ (fun _ => rfl) hkeeps hquiet
      cases final with
      | false => trivial
      | true => exact ⟨fun _ => rfl, fun h => by cases h⟩
  | finish hpc hpoint => exact h.finish hpc hpoint hkeeps hquiet
  | run hrun => exact h.run hrun hkeeps hquiet
  | graceExpire | admission | executor =>
      exact {
        control := h.control
        assertion := h.assertion_stay rfl ⟨rfl, rfl, rfl, id, And.right⟩ id hkeeps
        active := h.active
        quiet := hquiet
        final := h.final }

theorem Lifecycle.of_step (h : s.Lifecycle) (hstep : s.step openssl send action = some next) :
    next.Lifecycle := h.step (step_cases hstep)

theorem lifecycle_of_run {actions : List Action}
    (hrun : Machine.run (step openssl send) initial actions = some s) : s.Lifecycle :=
  Machine.run_invariant (fun _ _ _ h hstep => h.of_step hstep) lifecycle_initial hrun

/-- A running server has its network thread, its model and its executor. -/
theorem Lifecycle.running (h : s.Lifecycle) (hstate : s.state = .running) :
    ∃ k, s.network = some k ∧ s.runs k ≠ .ended ∧ s.model.isSome ∧ s.executor.isSome := by
  rcases h.quiet with (hstopped | ⟨k, hactive⟩ | ⟨c, hopening⟩) | habandoned
  · rw [hstate] at hstopped
    cases hstopped
  · obtain ⟨hnetwork, -, hmodel, hexecutor⟩ := h.active k hactive
    exact ⟨k, hnetwork, hactive, hmodel, hexecutor⟩
  · exfalso
    have hassert := h.assertion c
    revert hopening hassert
    cases s.callers c with
    | start o point =>
        cases point <;> simp [Caller.opening, Assertion, StartAssertion, Opening, hstate]
    | _ => simp [Caller.opening]
  · exact absurd hstate habandoned.state

/-- Once final shutdown is announced it stays announced, whatever runs next. -/
theorem finalShutdown_of_run {actions : List Action} (hfinal : s.finalShutdown = true)
    (hrun : Machine.run (step openssl send) s actions = some next) :
    next.finalShutdown = true := by
  have hkept : ∀ (s : Impl) (action : Action) (next : Impl), s.finalShutdown = true →
      s.step openssl send action = some next → next.finalShutdown = true :=
    fun _ _ _ h hstep => finalShutdown_mono (step_cases hstep) h
  exact Machine.run_invariant hkept hfinal hrun

/-- The thread member is only assigned by `start`, and only when it is not joinable. -/
theorem Lifecycle.network_assigned (h : s.Lifecycle) (hstep : Step openssl send s action next)
    {k : Nat} (hassigned : next.network = some k) (hnew : s.network ≠ some k) :
    s.network = none := by
  cases hstep with
  | @start c o point _ _ hpc hpoint =>
      have hassert := h.assertion c
      rw [hpc] at hassert
      cases hpoint with
      | thread => exact hassert.1.1
      | join => cases hassigned
      | _ => exact absurd hassigned hnew
  | stop _ hpoint =>
      cases hpoint with
      | join => cases hassigned
      | _ => exact absurd hassigned hnew
  | finish _ hpoint => cases hpoint <;> exact absurd hassigned hnew
  | run hrun => cases hrun <;> exact absurd hassigned hnew
  | _ => exact absurd hassigned hnew

/-- A step moves at most the caller that takes it. -/
theorem callers_of_step (hstep : Step openssl send s action next) (c : Nat) :
    next.callers c = s.callers c ∨ (∃ operation, action = .call c operation) ∨
      ∃ fault, action = .caller c fault := by
  have hupdate : ∀ {other : Nat} {caller : Caller}, c ≠ other →
      Function.update s.callers other caller c = s.callers c :=
    fun hother => Function.update_of_ne hother _ _
  cases hstep with
  | @call other operation =>
      by_cases hother : c = other
      · exact .inr (.inl ⟨operation, by rw [hother]⟩)
      · exact .inl (hupdate hother)
  | @start other _ _ fault _ _ hpoint =>
      by_cases hother : c = other
      · exact .inr (.inr ⟨fault, by rw [hother]⟩)
      · cases hpoint <;> exact .inl (hupdate hother)
  | @requesting other | @beginning other =>
      by_cases hother : c = other
      · exact .inr (.inr ⟨none, by rw [hother]⟩)
      · exact .inl (hupdate hother)
  | @stop other _ _ _ _ hpoint =>
      by_cases hother : c = other
      · exact .inr (.inr ⟨none, by rw [hother]⟩)
      · cases hpoint <;> exact .inl (hupdate hother)
  | @finish other _ _ _ hpoint =>
      by_cases hother : c = other
      · exact .inr (.inr ⟨none, by rw [hother]⟩)
      · cases hpoint <;> exact .inl (hupdate hother)
  | run hrun => cases hrun <;> exact .inl rfl
  | _ => exact .inl rfl

/-- `start` decides for success only while it sees `running`. -/
theorem start_decision (hstep : Step openssl send s action next) {c : Nat} {o : ServerOptions}
    (hdecided : next.callers c = .start o (.returning (.ok ())))
    (hopen : s.callers c ≠ next.callers c) : s.state = .running := by
  rcases callers_of_step hstep c with hsame | ⟨operation, rfl⟩ | ⟨fault, rfl⟩
  · exact absurd hsame.symm hopen
  · cases hstep
    cases operation <;> simp [Operation.entry] at hdecided
  · cases hstep with
    | start hpc hpoint => cases hpoint <;> simp_all
    | stop hpc hpoint =>
        cases hpoint <;> simp_all
        split at hdecided <;> simp_all
    | finish hpc hpoint => cases hpoint <;> simp_all
    | requesting => simp at hdecided
    | beginning => simp at hdecided; split at hdecided <;> simp_all

/-- `start` returns what it has decided. -/
theorem start_returned (hstep : Step openssl send s action next) {c : Nat} {result : Result}
    (hreturned : next.callers c = .started result) (hopen : s.callers c ≠ next.callers c) :
    ∃ o, s.callers c = .start o (.returning result) := by
  rcases callers_of_step hstep c with hsame | ⟨operation, rfl⟩ | ⟨fault, rfl⟩
  · exact absurd hsame.symm hopen
  · cases hstep
    cases operation <;> simp [Operation.entry] at hreturned
  · cases hstep with
    | start hpc hpoint => cases hpoint <;> simp_all
    | stop hpc hpoint =>
        cases hpoint <;> simp_all
        split at hreturned <;> simp_all
    | finish hpc hpoint => cases hpoint <;> simp_all
    | requesting => simp at hreturned
    | beginning => simp at hreturned; split at hreturned <;> simp_all

/-- `stop` returns only after it has joined the network thread under the lock. -/
theorem stop_returned (hstep : Step openssl send s action next) {c : Nat} {final : Bool}
    {point : Stopping} (hpc : s.callers c = .stop final point)
    (hreturned : ∀ other, next.callers c ≠ .stop final other) : point = .joined := by
  rcases callers_of_step hstep c with hsame | ⟨operation, rfl⟩ | ⟨fault, rfl⟩
  · exact absurd (hsame.trans hpc) (hreturned point)
  · cases hstep with
    | call hidle => simp [hpc, Caller.returned] at hidle
  · cases hstep with
    | @stop _ _ _ _ hpc' hpoint =>
        cases hpc'.symm.trans hpc
        cases hpoint <;> simp_all
    | start hpc' => cases hpc'.symm.trans hpc
    | finish hpc' => cases hpc'.symm.trans hpc
    | requesting hpc' => cases hpc'.symm.trans hpc
    | beginning hpc' => cases hpc'.symm.trans hpc

/-! ## Safety -/

/-- No exception but a `std::exception` has left a section of `start`. -/
def Contained (actions : List Action) : Prop := ∀ c, Action.caller c (some .other) ∉ actions

theorem answered_of_run {actions : List Action} (hcontained : Contained actions)
    (hrun : Machine.run (step openssl send) initial actions = some s) : s.Answered := by
  have hstep : ∀ (s : Impl) action next, s.Answered → (∀ c, action ≠ .caller c (some .other)) →
      s.step openssl send action = some next → next.Answered :=
    fun _ _ _ h hinside hnext => h.step (step_cases hnext) hinside
  refine Machine.run_invariant_of hstep (.inl rfl) (Machine.Along.of_forall ?_ _) hrun
  intro action haction _ c hescape
  exact hcontained c (hescape ▸ haction)

theorem abandoned_of_run {actions : List Action} {c : Nat}
    (hescape : .caller c (some .other) ∈ actions)
    (hrun : Machine.run (step openssl send) initial actions = some s) : s.Abandoned := by
  obtain ⟨before, after, rfl⟩ := List.append_of_mem hescape
  obtain ⟨mid, next, hbefore, hnext, hafter⟩ := Machine.run_split hrun
  have hmid := lifecycle_of_run hbefore
  have hkept : ∀ (s : Impl) action next, s.Lifecycle ∧ s.Abandoned →
      s.step openssl send action = some next → next.Lifecycle ∧ next.Abandoned :=
    fun _ _ _ h hstep => ⟨h.1.of_step hstep, (h.1.keeps (step_cases hstep)).abandoned h.2⟩
  exact (Machine.run_invariant hkept
    ⟨hmid.of_step hnext, hmid.escape (step_cases hnext)⟩ hafter).2

/-- Nobody takes an abandoned server out of its state. -/
theorem Abandoned.not_answered (h : s.Lifecycle) (habandoned : s.Abandoned) : ¬s.Answered := by
  rintro (hstopped | ⟨k, hactive⟩ | ⟨c, hopening⟩)
  · exact habandoned.unstopped hstopped
  · exact hactive (h.ended_of_network habandoned.network k)
  · have hcommitted := habandoned.committed c
    revert hopening hcommitted
    cases s.callers c with
    | start o point => cases point <;> simp [Caller.opening, Caller.committed]
    | _ => simp [Caller.opening]

/-- A server that is neither opened nor served is stopped, unless an exception left `start`. -/
theorem stopped_iff_contained {actions : List Action}
    (hrun : Machine.run (step openssl send) initial actions = some s)
    (hclosed : s.Closed ∨ s.Abandoned) : s.state = .stopped ↔ Contained actions := by
  constructor
  · intro hstopped c hescape
    exact (abandoned_of_run hescape hrun).unstopped hstopped
  · intro hcontained
    rcases hclosed with ⟨-, hstate⟩ | habandoned
    · exact hstate
    · have h := lifecycle_of_run hrun
      exact absurd (answered_of_run hcontained hrun) (habandoned.not_answered h)

/-- What the lifecycle promises in a state that a run reaches, and about the next step. -/
structure Safe (openssl : Bool) (send : Nat → Bool) (actions : List Action) (s : Impl) : Prop where
  final : s.finalShutdown = true → s.state ≠ .running ∧
    ∀ actions later, Machine.run (step openssl send) s actions = some later →
      later.finalShutdown = true ∧ later.state ≠ .running
  running : s.state = .running → ∃ k, s.network = some k ∧ s.runs k ≠ .ended ∧
    s.model.isSome ∧ s.executor.isSome
  single : ∀ k j, s.runs k ≠ .ended → s.runs j ≠ .ended → k = j
  thread : ∀ action next k, s.step openssl send action = some next → next.network = some k →
    s.network ≠ some k → s.network = none
  decided : ∀ action next c o, s.step openssl send action = some next →
    next.callers c = .start o (.returning (.ok ())) → s.callers c ≠ next.callers c →
      s.state = .running
  returned : ∀ action next c result, s.step openssl send action = some next →
    next.callers c = .started result → s.callers c ≠ next.callers c →
      ∃ o, s.callers c = .start o (.returning result)
  /-- The return of `stop`. -/
  stopped : ∀ action next c final point, s.step openssl send action = some next →
    s.callers c = .stop final point → (∀ other, next.callers c ≠ .stop final other) →
      point = .joined ∧ s.control = some c ∧ s.network = none ∧
        (s.state = .stopped ↔ Contained actions)

/-- The lifecycle is safe in every interleaving of any number of callers, network
threads, handlers and executors. A server that `stop` leaves is stopped, but for one
that an exception of a foreign kind left in the middle of `start`. -/
theorem lifecycle_safe (openssl : Bool) (send : Nat → Bool) (actions : List Action) (s : Impl)
    (hrun : Machine.run (step openssl send) initial actions = some s) :
    s.Safe openssl send actions := by
  have h := lifecycle_of_run hrun
  refine {
    final := fun hfinal => ⟨h.final hfinal, fun actions' later hlater => ?_⟩
    running := h.running
    single := fun k j hk hj => ?_
    thread := fun action next k hstep => h.network_assigned (step_cases hstep)
    decided := fun action next c o hstep => start_decision (step_cases hstep)
    returned := fun action next c result hstep => start_returned (step_cases hstep)
    stopped := fun action next c final point hstep hpc hreturned => ?_ }
  · have hset := finalShutdown_of_run hfinal hlater
    have hlifecycle : later.Lifecycle :=
      Machine.run_invariant (fun _ _ _ h hstep => h.of_step hstep) h hlater
    exact ⟨hset, hlifecycle.final hset⟩
  · have hnetwork := (h.active k hk).1
    rw [(h.active j hj).1, Option.some.injEq] at hnetwork
    exact hnetwork.symm
  -- The lock is still held where `stop` returns, so nobody has changed the state since.
  · have hjoined := stop_returned (step_cases hstep) hpc hreturned
    subst hjoined
    have hassert := h.assertion c
    rw [hpc] at hassert
    have hclosed : s.Closed ∨ s.Abandoned := hassert.2 rfl
    refine ⟨rfl, (h.control c).mpr (by rw [hpc]; rfl), ?_, stopped_iff_contained hrun hclosed⟩
    exact hclosed.elim And.left fun habandoned => habandoned.network

/-- A caller starts the server, which comes up; a second caller stops it. -/
def startStop : List Action := List.flatten
  [[.call 0 (.start {})], List.replicate 10 (.caller 0 none),
    [.run 0 .bind, .run 0 .publishListener, .run 0 .watched, .run 0 .startHandler,
      .caller 0 none, .caller 0 none, .call 1 .stop],
    List.replicate 3 (.caller 1 none)]

theorem lifecycle_safe_startStop :
    ∃ s, Machine.run (step true fun _ => false) initial startStop = some s ∧
      s.network = some 0 ∧ s.state = .stopping ∧ s.Safe true (fun _ => false) startStop := by
  have hshape : (Machine.run (step true fun _ => false) initial startStop).map
      (fun s => (s.network, s.state)) = some (some 0, .stopping) := by rfl
  obtain ⟨s, hrun, hshape⟩ := Option.map_eq_some_iff.mp hshape
  obtain ⟨hnetwork, hstate⟩ := Prod.mk.inj hshape
  exact ⟨s, hrun, hnetwork, hstate, lifecycle_safe true _ startStop s hrun⟩

/-- A typekit throws something else than a `std::exception` while the first start makes the
catalog; a second caller stops the server. -/
def escapedStart : List Action := List.flatten
  [[.call 0 (.start {})], List.replicate 5 (.caller 0 none),
    [.caller 0 (some .other), .call 1 .stop], List.replicate 4 (.caller 1 none)]

/-- `stop` is about to return and holds the lock, and the server is not stopped. -/
theorem stop_leaves_stopping :
    ∃ s next, Machine.run (step true fun _ => false) initial escapedStart = some s ∧
      s.callers 1 = .stop false .joined ∧ s.control = some 1 ∧ s.state = .stopping ∧
      s.step true (fun _ => false) (.caller 1 none) = some next ∧ next.callers 1 = .finished := by
  exact ⟨_, _, rfl, rfl, rfl, rfl, rfl, rfl⟩

end Impl

end RttHttp.Server
