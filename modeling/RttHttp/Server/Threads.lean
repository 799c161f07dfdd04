import RttHttp.Server.Blocking

/-! # What becomes of the threads that a call waits for

The network thread comes to serve or to its end, and an executor that is shut down comes
to its end. Of the listener this asks only that it calls the start handler and returns
after `listener->stop()` has been called from there on; that no stop request falls between
is for the server to see to.
-/

namespace RttHttp.Server

open Executor (OperationExecutor)
open Executor.OperationExecutor (IsWorker IsReaper IsCloser)
open Machine (Path Enabled)

/-- A step of the executor `ref` by the thread that takes the steps `mine`. -/
def OfExecutor (ref : Nat) (mine : Executor.Action → Prop) (action : Action) : Prop :=
  ∃ own, action = .executor ref own ∧ mine own

namespace Impl

variable {openssl : Bool} {send : Nat → Bool}

/-- Sections that call `requestStopLocked`. -/
def requestsStop (s : Impl) : Action → Bool
  | .caller c _ =>
      match s.callers c with
      | .requesting | .stop _ .request | .stop _ .again | .beginning _ => true
      | _ => false
  | .run k .poolShutdown => s.runs k = .listen
  | .run _ .catchFailure => true
  | _ => false

/-- Sections that call `listener->stop()`. -/
def StopsListener (s : Impl) : Action → Prop
  | .run k .publishListener => s.runs k = .bound ∧ (s.state ≠ .starting ∨ s.finalShutdown = true)
  | .run k .startHandler =>
      s.runs k = .listen ∧ ¬(s.state = .starting ∧ s.finalShutdown = false) ∧ s.listener = true
  | action =>
      s.requestsStop action = true ∧ s.listener = true ∧ s.state ≠ .stopped ∧ s.state ≠ .stopping

/-- What cpp-httplib does once `listen_after_bind` has been called: it calls the start
handler, and it returns if its listener is stopped then or later. -/
structure Listens (path : Path (step openssl send)) : Prop where
  handled : ∀ k n, (∀ m, n ≤ m → (path.state m).runs k = .listen) →
    ∃ m, path.action m = some (.run k .startHandler)
  stopped : ∀ k n m action, path.action n = some (.run k .startHandler) → n ≤ m →
    path.action m = some action → (path.state m).StopsListener action →
    ∃ l, m ≤ l ∧ (path.state l).runs k ≠ .listen

/-- The surroundings of a server: its threads and those of its executors are scheduled,
RTT answers what has been sent, and the listener behaves. -/
structure Fair (path : Path (step openssl send)) : Prop where
  callers : ∀ c, path.Just (IsCaller c)
  runs : ∀ k, path.Just (IsRun k)
  workers : ∀ ref w, path.Just (OfExecutor ref (IsWorker w))
  reapers : ∀ ref, path.Just (OfExecutor ref IsReaper)
  closers : ∀ ref, path.Just (OfExecutor ref IsCloser)
  answers : ∀ ref i, ∃ n, ∀ m, n ≤ m →
    path.action m ≠ some (.executor ref (.reaper (.collect i (.returned .sendNotReady))))
  listens : Listens path

/-! ## The network thread -/

section Step

variable {s next : Impl} {action : Action} {k : Nat}

/-- The point of a network thread changes only by its own sections. -/
theorem runs_of_step (hstep : s.step openssl send action = some next) (hspawned : k < s.spawned) :
    next.runs k = s.runs k ∨ ∃ own, action = .run k own ∧ s.runStep k own = some next := by
  have hrest : Step openssl send s action next := step_cases hstep
  cases hrest with
  | start hpc hpoint =>
      cases hpoint with
      | thread => exact .inl (by simp [Function.update_of_ne (Nat.ne_of_lt hspawned)])
      | _ => exact .inl rfl
  | stop hpc hpoint => cases hpoint <;> exact .inl rfl
  | finish hpc hpoint => cases hpoint <;> exact .inl rfl
  | @run j own _ hrun =>
      by_cases hj : k = j
      · subst hj
        exact .inr ⟨own, rfl, hstep⟩
      · cases hrun <;> first | exact .inl rfl | exact .inl (Function.update_of_ne hj _ _)
  | _ => exact .inl rfl

theorem spawned_of_step (hstep : Step openssl send s action next) : s.spawned ≤ next.spawned := by
  cases hstep with
  | start hpc hpoint => cases hpoint <;> first | exact le_rfl | exact Nat.le_succ _
  | stop hpc hpoint => cases hpoint <;> exact le_rfl
  | finish hpc hpoint => cases hpoint <;> exact le_rfl
  | run hrun => cases hrun <;> exact le_rfl
  | _ => exact le_rfl

/-- While the listener of a running server is open, the server runs on or stops the
listener. -/
theorem running_of_step (h : s.Poised openssl) (hlisten : s.runs k = .listen)
    (hrunning : s.state = .running) (hstep : s.step openssl send action = some next) :
    next.state = .running ∨ s.StopsListener action := by
  have hactive := h.lifecycle.active k (by rw [hlisten]; simp)
  have hlistener := h.listening k (by rw [hlisten]; rfl)
  have hrest : Step openssl send s action next := step_cases hstep
  cases hrest with
  | @start c o point fault _ hpc hpoint =>
      have hassert := h.lifecycle.assertion c
      rw [hpc] at hassert
      cases hpoint with
      | install => exact absurd (hassert.2.symm.trans hrunning) (by simp)
      | stopped => exact absurd (hassert.1.1.symm.trans hactive.1) (by simp)
      | failed => exact absurd (hassert.1.symm.trans hactive.1) (by simp)
      | _ => exact .inl hrunning
  | requesting hpc =>
      refine .inr ⟨by simp [requestsStop, hpc], hlistener, ?_, ?_⟩ <;> simp [hrunning]
  | stop hpc hpoint =>
      cases hpoint with
      | request | again =>
          refine .inr ⟨by simp [requestsStop, hpc], hlistener, ?_, ?_⟩ <;> simp [hrunning]
      | _ => exact .inl hrunning
  | beginning hpc =>
      refine .inr ⟨by simp [requestsStop, hpc], hlistener, ?_, ?_⟩ <;> simp [hrunning]
  | finish hpc hpoint => cases hpoint <;> exact .inl hrunning
  | @run j own _ hrun =>
      have hown : s.runStep j own = some next := hstep
      have hj : j = k := by
        by_contra hne
        have hended : s.runs j = .ended := by
          by_contra hother
          have hnetwork := (h.lifecycle.active j hother).1
          rw [hactive.1, Option.some.injEq] at hnetwork
          exact hne hnetwork.symm
        simp [runStep, hended] at hown
      subst hj
      cases own with
      | poolShutdown =>
          exact .inr ⟨by simp [requestsStop, hlisten], hlistener, by simp [hrunning],
            by simp [hrunning]⟩
      | startHandler | listened | failed =>
          simp only [runStep, hlisten, hrunning] at hown
          simp at hown
          subst hown
          exact .inl hrunning
      | _ => simp [runStep, hlisten] at hown
  | _ => exact .inl hrunning

/-- The start handler lets the server run, unless a stop has been asked for. -/
theorem startHandler_of_step (h : s.Poised openssl)
    (hstep : s.step openssl send (.run k .startHandler) = some next) :
    next.state = .running ∨ s.StopsListener (.run k .startHandler) := by
  have hown : s.runStep k .startHandler = some next := hstep
  have hlisten : s.runs k = .listen := by
    by_contra hother
    cases hpc : s.runs k <;> simp_all [runStep]
  by_cases hstarting : s.state = .starting ∧ s.finalShutdown = false
  · simp only [runStep, hlisten, if_pos hstarting, Option.some.injEq] at hown
    exact .inl (by rw [← hown])
  · exact .inr ⟨hlisten, hstarting, h.listening k (by rw [hlisten]; rfl)⟩

end Step

section Path

variable {path : Path (step openssl send)} {n k : Nat}

theorem poised_of_path (hstart : path.state 0 = initial) (n : Nat) :
    (path.state n).Poised openssl :=
  path.invariant (fun _ _ _ h hstep => h.step hstep) (hstart ▸ poised_initial) (Nat.zero_le n)

/-- An exception has left a `start` in the first `n` steps. -/
def Escaped (path : Path (step openssl send)) (n : Nat) : Prop :=
  ∃ m < n, ∃ c, path.action m = some (.caller c (some .other))

/-- Somebody answers for the server until an exception leaves a `start`. -/
theorem answered_of_path (hstart : path.state 0 = initial) (n : Nat) :
    (path.state n).Answered ∨ Escaped path n := by
  induction n with
  | zero =>
      rw [hstart]
      exact .inl (.inl rfl)
  | succ n ih =>
      rcases ih with hanswered | ⟨m, hm, c, haction⟩
      · rcases path.rest_or_step n with ⟨-, hrest⟩ | ⟨action, haction, hnext⟩
        · rw [hrest]
          exact .inl hanswered
        · by_cases hescape : ∃ c, action = .caller c (some .other)
          · obtain ⟨c, rfl⟩ := hescape
            exact .inr ⟨n, Nat.lt_succ_self n, c, haction⟩
          · refine .inl (hanswered.step (step_cases hnext) fun c heq => ?_)
            exact hescape ⟨c, heq⟩
      · exact .inr ⟨m, hm.trans (Nat.lt_succ_self n), c, haction⟩

/-- What an exception has left behind stays. -/
theorem abandoned_of_path (hstart : path.state 0 = initial) {n m : Nat}
    (habandoned : (path.state n).Abandoned) (hle : n ≤ m) :
    (path.state m).Abandoned ∧ Escaped path m := by
  have hkept : ∀ (s : Impl) action next, s.Lifecycle ∧ s.Abandoned →
      s.step openssl send action = some next → next.Lifecycle ∧ next.Abandoned :=
    fun _ _ _ h hstep => ⟨h.1.of_step hstep, (h.1.keeps (step_cases hstep)).abandoned h.2⟩
  obtain ⟨hlifecycle, hm⟩ :=
    path.invariant hkept ⟨(poised_of_path hstart n).lifecycle, habandoned⟩ hle
  exact ⟨hm, (answered_of_path hstart m).resolve_left (hm.not_answered hlifecycle)⟩

/-- A network thread that has been spawned only comes nearer to its end. -/
theorem left_of_path (hspawned : k < (path.state n).spawned) {m : Nat} (hle : n ≤ m) :
    k < (path.state m).spawned ∧ ((path.state m).runs k).left ≤ ((path.state n).runs k).left := by
  induction m, hle using Nat.le_induction with
  | base => exact ⟨hspawned, le_rfl⟩
  | succ m _ ih =>
      rcases path.rest_or_step m with ⟨-, hrest⟩ | ⟨action, -, hnext⟩
      · rw [hrest]
        exact ih
      · refine ⟨Nat.lt_of_lt_of_le ih.1 (spawned_of_step (step_cases hnext)), le_trans ?_ ih.2⟩
        rcases runs_of_step hnext ih.1 with hsame | ⟨own, -, hown⟩
        · rw [hsame]
        · rcases left_of_runStep hown with hlower | ⟨-, hsame⟩
          · exact hlower.le
          · rw [hsame]

/-- A network thread that listens at the end of a while has done so all the while. -/
theorem listen_between (hspawned : k < (path.state n).spawned)
    (hfirst : (path.state n).runs k = .listen) {m : Nat} (hnm : n ≤ m) {l : Nat} (hml : m ≤ l)
    (hlast : (path.state l).runs k = .listen) : (path.state m).runs k = .listen := by
  obtain ⟨hspawned', hupper⟩ := left_of_path hspawned hnm
  have hlower := (left_of_path hspawned' hml).2
  rw [hlast] at hlower
  rw [hfirst] at hupper
  exact Run.listen_of_left (le_antisymm hupper hlower)

/-- No stop request is lost: a network thread that listens for ever serves for ever. -/
theorem running_forever (hfair : Fair path) (hstart : path.state 0 = initial)
    (hlisten : ∀ m, n ≤ m → (path.state m).runs k = .listen) :
    ∃ m, n ≤ m ∧ ∀ l, m ≤ l → (path.state l).state = .running := by
  obtain ⟨h, hhandler⟩ := hfair.listens.handled k n hlisten
  have hpoised := poised_of_path hstart
  have hnow : (path.state h).runs k = .listen := by
    have hown : (path.state h).runStep k .startHandler = some (path.state (h + 1)) :=
      path.step_of_action hhandler
    by_contra hother
    cases hpc : (path.state h).runs k <;> simp_all [runStep]
  have hspawned : k < (path.state h).spawned := by
    by_contra hnone
    rw [(hpoised h).fresh k (Nat.not_lt.mp hnone)] at hnow
    cases hnow
  have hever : ∀ m, h ≤ m → (path.state m).runs k = .listen := fun m hm =>
    listen_between hspawned hnow hm (le_max_left m n) (hlisten _ (le_max_right m n))
  -- From the start handler on nobody has stopped the listener.
  have hunstopped : ∀ m action, h ≤ m → path.action m = some action →
      ¬(path.state m).StopsListener action := by
    intro m action hm haction hstops
    obtain ⟨l, hl, hleft⟩ := hfair.listens.stopped k h m action hhandler hm haction hstops
    exact hleft (hever l (hm.trans hl))
  have hrunning : ∀ m, h + 1 ≤ m → (path.state m).state = .running := by
    intro m hm
    induction m, hm using Nat.le_induction with
    | base =>
        exact (startHandler_of_step (hpoised h) (path.step_of_action hhandler)).resolve_right
          (hunstopped h _ le_rfl hhandler)
    | succ m hm ih =>
        have hm' : h ≤ m := (Nat.le_succ h).trans hm
        rcases path.rest_or_step m with ⟨-, hrest⟩ | ⟨action, haction, hnext⟩
        · rw [hrest]
          exact ih
        · exact (running_of_step (hpoised m) (hever m hm') ih hnext).resolve_right
            (hunstopped m action hm' haction)
  exact ⟨max n (h + 1), le_max_left _ _, fun l hl => hrunning l ((le_max_right _ _).trans hl)⟩

/-- A network thread comes to its end, or it serves for ever. -/
theorem run_settles (hfair : Fair path) (hstart : path.state 0 = initial)
    (hspawned : k < (path.state n).spawned) :
    (∃ m, n ≤ m ∧ (path.state m).runs k = .ended) ∨
      ∃ m, n ≤ m ∧ ∀ l, m ≤ l → (path.state l).runs k = .listen ∧ (path.state l).state = .running := by
  by_cases hserves : ∃ m, n ≤ m ∧ ∀ l, m ≤ l → (path.state l).runs k = .listen
  · obtain ⟨m, hm, hlisten⟩ := hserves
    obtain ⟨j, hj, hrunning⟩ := running_forever hfair hstart hlisten
    exact .inr ⟨j, hm.trans hj, fun l hl => ⟨hlisten l (hj.trans hl), hrunning l hl⟩⟩
  · refine .inl (Path.exists_of_descent (fun _ => True) (fun m => ((path.state m).runs k).left)
      trivial fun m hm _ => ?_)
    have hspawned' := (left_of_path hspawned hm).1
    by_contra hstuck
    have hsame : ∀ l, m ≤ l → ((path.state l).runs k).left = ((path.state m).runs k).left := by
      intro l hl
      refine le_antisymm (left_of_path hspawned' hl).2 (Nat.not_lt.mp fun hlower => hstuck ?_)
      exact ⟨l, hl, .inr ⟨trivial, hlower⟩⟩
    have hactive : ∀ l, m ≤ l → (path.state l).runs k ≠ .ended :=
      fun l hl hended => hstuck ⟨l, hl, .inl hended⟩
    obtain ⟨l, hl, action, haction, own, rfl⟩ :=
      hfair.runs k m fun l hl => run_enabled (hactive l hl)
    have hown : (path.state l).runStep k own = some (path.state (l + 1)) :=
      path.step_of_action haction
    rcases left_of_runStep hown with hlower | ⟨hlisten, -⟩
    · rw [hsame l hl, hsame (l + 1) (hl.trans (Nat.le_succ l))] at hlower
      exact Nat.lt_irrefl _ hlower
    · -- It could only have listened all the time.
      refine hserves ⟨m, hm, fun j hj => Run.listen_of_left ?_⟩
      rw [hsame j hj, ← hsame l hl, hlisten]
      rfl

end Path

/-! ## Executors -/

/-- The step of the executor `ref` that a section of the server takes. -/
def executorAction (s : Impl) (ref : Nat) : Action → Option Executor.Action
  | .caller c _ =>
      match s.callers c with
      | .start _ (.retire old) | .finish (.retire old) =>
          if old = ref then some (.closer .begin) else none
      | _ => none
  | .admission i fault result =>
      if s.executor = some ref then
        some (.handler i (.admission s.options.maxPendingOperations.toNat fault result))
      else none
  | .executor other own => if other = ref then some own else none
  | _ => none

section Step

variable {s next : Impl} {action : Action} {ref : Nat} {old : OperationExecutor}

/-- The list of executors after a step of one of them. -/
theorem getElem?_stepped {other : Nat} {old' new : OperationExecutor} {own : Executor.Action}
    (hget : s.executors[ref]? = some old) (hother : s.executors[other]? = some old')
    (hown : old'.step own = some new) :
    ∃ final, (s.executors.set other new)[ref]? = some final ∧
      (if other = ref then some own else none).elim (some old) old.step = some final := by
  have hlength := (List.getElem?_eq_some_iff.mp hget).1
  by_cases heq : other = ref
  · subst heq
    obtain rfl : old' = old := Option.some.inj (hother.symm.trans hget)
    exact ⟨new, List.getElem?_set_self hlength, by simpa using hown⟩
  · exact ⟨old, by rw [List.getElem?_set_ne heq]; exact hget, by simp [heq]⟩

theorem executorAction_of_step (hstep : Step openssl send s action next)
    (hget : s.executors[ref]? = some old) :
    ∃ new, next.executors[ref]? = some new ∧
      (s.executorAction ref action).elim (some old) old.step = some new := by
  have hlength := (List.getElem?_eq_some_iff.mp hget).1
  cases hstep with
  | start hpc hpoint =>
      cases hpoint with
      | retire hother hbegin =>
          simp only [executorAction, hpc]
          exact getElem?_stepped hget hother hbegin
      | executor =>
          refine ⟨old, ?_, by simp [executorAction, hpc]⟩
          simpa [List.getElem?_append_left hlength] using hget
      | failure hpoint =>
          refine ⟨old, hget, ?_⟩
          rcases hpoint with rfl | rfl | rfl | rfl <;> simp [executorAction, hpc]
      | _ => exact ⟨old, hget, by simp [executorAction, hpc]⟩
  | finish hpc hpoint =>
      cases hpoint with
      | retire hother hbegin =>
          simp only [executorAction, hpc]
          exact getElem?_stepped hget hother hbegin
      | _ => exact ⟨old, hget, by simp [executorAction, hpc]⟩
  | requesting hpc => exact ⟨old, hget, by simp [executorAction, hpc]⟩
  | stop hpc hpoint => cases hpoint <;> exact ⟨old, hget, by simp [executorAction, hpc]⟩
  | beginning hpc => exact ⟨old, hget, by simp [executorAction, hpc]⟩
  | run hrun => cases hrun <;> exact ⟨old, hget, rfl⟩
  | admission _ _ _ hcurrent hother hadmission =>
      simp only [executorAction, hcurrent, Option.some.injEq]
      exact getElem?_stepped hget hother hadmission
  | executor hinternal hother hown => exact getElem?_stepped hget hother hown
  | call | graceExpire => exact ⟨old, hget, rfl⟩

end Step

/-- An executor that has been created stays in the list. -/
theorem executor_there {path : Path (step openssl send)} {ref n m : Nat}
    (hcreated : ∃ executor, (path.state n).executors[ref]? = some executor) (hle : n ≤ m) :
    ∃ executor, (path.state m).executors[ref]? = some executor := by
  have hkept : ∀ (s : Impl) action next, (∃ executor, s.executors[ref]? = some executor) →
      step openssl send s action = some next → ∃ executor, next.executors[ref]? = some executor := by
    intro s action next hs hstep
    obtain ⟨executor, hget⟩ := hs
    obtain ⟨new, hnew, -⟩ := executorAction_of_step (step_cases hstep) hget
    exact ⟨new, hnew⟩
  exact path.invariant hkept hcreated hle

/-- One executor of a server from the moment `n`, at which it is there. -/
def executorPath (path : Path (step openssl send)) (ref n : Nat)
    (hcreated : ∃ executor, (path.state n).executors[ref]? = some executor) :
    Path OperationExecutor.step where
  state k := ((path.state (n + k)).executors[ref]?).getD (.start 0 send)
  action k := (path.action (n + k)).bind ((path.state (n + k)).executorAction ref)
  moves k := by
    obtain ⟨old, hget⟩ := executor_there hcreated (Nat.le_add_right n k)
    rcases path.rest_or_step (n + k) with ⟨hnone, hrest⟩ | ⟨action, haction, hnext⟩
    · rw [hnone, show n + (k + 1) = n + k + 1 from rfl, hrest]
      rfl
    · obtain ⟨new, hnew, hown⟩ := executorAction_of_step (step_cases hnext) hget
      rw [haction, show n + (k + 1) = n + k + 1 from rfl, hget, hnew]
      exact hown

section Path

variable {path : Path (step openssl send)} {ref n k : Nat}
  {hcreated : ∃ executor, (path.state n).executors[ref]? = some executor}

theorem executorPath_state {executor : OperationExecutor}
    (hget : (path.state (n + k)).executors[ref]? = some executor) :
    (executorPath path ref n hcreated).state k = executor := by
  change ((path.state (n + k)).executors[ref]?).getD _ = executor
  rw [hget]
  rfl

/-- The threads of an executor are treated as justly as the server's. -/
theorem just_executorPath {mine : Executor.Action → Prop}
    (hinternal : ∀ own, mine own → internal own = true)
    (hjust : path.Just (OfExecutor ref mine)) : (executorPath path ref n hcreated).Just mine := by
  intro m henabled
  obtain ⟨j, hj, action, haction, own, rfl, hmine⟩ := hjust (n + m) fun j hj => by
    obtain ⟨own, hmine, hsome⟩ := henabled (j - n) (by omega)
    obtain ⟨executor, hget⟩ := executor_there hcreated (show n ≤ j by omega)
    have hstate : (executorPath path ref n hcreated).state (j - n) = executor :=
      executorPath_state (by rw [show n + (j - n) = j by omega]; exact hget)
    rw [hstate] at hsome
    refine ⟨.executor ref own, ⟨own, rfl, hmine⟩, ?_⟩
    simpa [step, hinternal own hmine, executorStep, hget] using hsome
  refine ⟨j - n, by omega, own, ?_, hmine⟩
  change (path.action (n + (j - n))).bind ((path.state (n + (j - n))).executorAction ref) = some own
  rw [show n + (j - n) = j by omega, haction]
  simp [executorAction]

/-- Every executor has been created with threads and without work. -/
theorem executor_created (hstart : path.state 0 = initial)
    (hthere : ∃ executor, (path.state n).executors[ref]? = some executor) :
    ∃ m width, m ≤ n ∧ 0 < width ∧ (path.state m).executors[ref]? = some (.start width send) := by
  induction n with
  | zero =>
      rw [hstart] at hthere
      simp [initial] at hthere
  | succ n ih =>
      by_cases hbefore : ∃ executor, (path.state n).executors[ref]? = some executor
      · obtain ⟨m, width, hm, hcreated⟩ := ih hbefore
        exact ⟨m, width, hm.trans (Nat.le_succ n), hcreated⟩
      · obtain ⟨executor, hget⟩ := hthere
        rcases path.rest_or_step n with ⟨-, hrest⟩ | ⟨action, -, hnext⟩
        · exact absurd ⟨executor, hrest ▸ hget⟩ hbefore
        · have hmanned := (poised_of_path hstart (n + 1)).manned executor (List.mem_of_getElem? hget)
          rcases executors_of_step (step_cases hnext) with hsame |
            ⟨other, old, new, own, hold, -, hset, -⟩ | ⟨c, o, -, happend⟩
          · exact absurd ⟨executor, hsame ▸ hget⟩ hbefore
          · have hlength : ref < (path.state n).executors.length := by
              have hlength := (List.getElem?_eq_some_iff.mp hget).1
              rwa [hset, List.length_set] at hlength
            exact absurd ⟨_, List.getElem?_eq_getElem hlength⟩ hbefore
          · have hnew : executor = .start o.workerThreads.toNat send := by
              have hnone : (path.state n).executors[ref]? = none := by
                by_contra hsome
                exact hbefore (Option.ne_none_iff_exists'.mp hsome)
              have hlength := List.getElem?_eq_none_iff.mp hnone
              rw [happend, List.getElem?_append_right hlength] at hget
              exact List.mem_singleton.mp (List.mem_of_getElem? hget)
            subst hnew
            exact ⟨n + 1, o.workerThreads.toNat, le_rfl, hmanned, hget⟩

theorem executorAction_executor {s : Impl} {action : Action} {own : Executor.Action}
    (hown : s.executorAction ref action = some own) :
    action = .executor ref own ∨ own = .closer .begin ∨ s.executor = some ref ∧
      ∃ i fault result,
        own = .handler i (.admission s.options.maxPendingOperations.toNat fault result) := by
  revert hown
  fun_cases executorAction s ref action <;> simp only [Option.some.injEq, reduceCtorEq, false_implies]
  all_goals rintro rfl
  all_goals simp_all

/-- An executor admits only while it is current. -/
theorem current_of_admission {m i cap : Nat} {fault : Option Executor.AdmitFault}
    {result : Executor.AdmitResult} (haction : (executorPath path ref n hcreated).action m =
      some (.handler i (.admission cap fault result))) :
    (path.state (n + m)).executor = some ref ∧
      cap = (path.state (n + m)).options.maxPendingOperations.toNat := by
  obtain ⟨action, htaken, hown⟩ := Option.bind_eq_some_iff.mp haction
  rcases executorAction_executor hown with rfl | hbegin | ⟨hcurrent, j, fault', result', heq⟩
  · have hnext := path.step_of_action htaken
    simp [step, internal] at hnext
  · cases hbegin
  · cases heq
    exact ⟨hcurrent, rfl⟩

/-- An executor of a server lives in the surroundings that its liveness asks for: it
admits only while it is current, and then nobody shuts it down. -/
theorem fair_executorPath (hfair : Fair path) (hstart : path.state 0 = initial) :
    OperationExecutor.Fair (2 ^ 32) (executorPath path ref n hcreated) := by
  have hpoised := poised_of_path hstart
  refine ⟨fun w => ?_, ?_, fun i => ?_, ?_, ?_⟩
  · refine just_executorPath ?_ (hfair.workers ref w)
    rintro own ⟨worker, rfl⟩
    rfl
  · refine just_executorPath ?_ (hfair.reapers ref)
    rintro own ⟨reaper, rfl⟩
    rfl
  · obtain ⟨answered, hanswers⟩ := hfair.answers ref i
    refine ⟨answered, fun m hm haction => ?_⟩
    obtain ⟨action, htaken, hown⟩ := Option.bind_eq_some_iff.mp haction
    rcases executorAction_executor hown with rfl | hbegin | ⟨-, j, fault, result, heq⟩
    · exact hanswers (n + m) (hm.trans (Nat.le_add_left m n)) htaken
    · cases hbegin
    · cases heq
  · intro m own haction
    unfold OperationExecutor.InTime
    split
    next i cap fault =>
      intro hdrained
      obtain ⟨executor, hget⟩ := executor_there hcreated (Nat.le_add_right n m)
      rw [executorPath_state hget] at hdrained
      have hcurrent := (current_of_admission haction).1
      have hopened := (((hpoised (n + m)).stock.entry ref executor hget).current hcurrent).1
      rw [hopened] at hdrained
      cases hdrained
    next => trivial
  · intro m i cap haction
    rw [(current_of_admission haction).2]
    exact (path.state (n + m)).options.maxPendingOperations.toNat_lt.le

/-- A `shutdown()` of an executor that is not current returns. -/
theorem executor_closes (hfair : Fair path) (hstart : path.state 0 = initial)
    {executor : OperationExecutor} (hget : (path.state n).executors[ref]? = some executor)
    (hbegun : executor.closer ≠ .opened)
    (hout : ∀ m, n ≤ m → (path.state m).executor ≠ some ref) :
    ∃ m closed, n ≤ m ∧ (path.state m).executors[ref]? = some closed ∧ closed.closer = .closed := by
  obtain ⟨first, width, hfirst, hwidth, hcreated⟩ := executor_created hstart ⟨executor, hget⟩
  have hthere : ∃ executor, (path.state first).executors[ref]? = some executor := ⟨_, hcreated⟩
  have hstate : (executorPath path ref first hthere).state (n - first) = executor :=
    executorPath_state (by rw [show first + (n - first) = n by omega]; exact hget)
  have hcloser : (executorPath path ref first hthere).Just IsCloser := by
    refine just_executorPath ?_ (hfair.closers ref)
    rintro own ⟨closer, rfl, hclosing⟩
    cases closer <;> first | rfl | exact absurd rfl hclosing
  obtain ⟨m, hm, hclosed⟩ := (fair_executorPath hfair hstart).closed hcloser
    (executorPath_state (k := 0) hcreated) hwidth (n := n - first) (hstate ▸ hbegun)
    fun m hm i cap haction => hout (first + m) (by omega) (current_of_admission haction).1
  obtain ⟨closed, hlater⟩ := executor_there hthere (Nat.le_add_right first m)
  rw [executorPath_state hlater] at hclosed
  exact ⟨first + m, closed, by omega, hlater, hclosed⟩

/-- Every operation that was ever admitted is completed and released. -/
theorem admitted_released (hfair : Fair path) (hstart : path.state 0 = initial) {i : Nat}
    {executor : OperationExecutor} (hget : (path.state n).executors[ref]? = some executor)
    (hadmitted : executor.Admitted i) :
    ∃ m later, n ≤ m ∧ (path.state m).executors[ref]? = some later ∧
      (later.invocation i).complete = true ∧ i ∉ later.pending := by
  obtain ⟨first, width, hfirst, hwidth, hcreated⟩ := executor_created hstart ⟨executor, hget⟩
  have hthere : ∃ executor, (path.state first).executors[ref]? = some executor := ⟨_, hcreated⟩
  have hinitial : (executorPath path ref first hthere).state 0 = .start width send :=
    executorPath_state (k := 0) hcreated
  have hnow : (executorPath path ref first hthere).state (n - first) = executor :=
    executorPath_state (by rw [show first + (n - first) = n by omega]; exact hget)
  have hserved : OperationExecutor.Fair (2 ^ 32) (executorPath path ref first hthere) :=
    fair_executorPath hfair hstart
  obtain ⟨m, hm, hgone⟩ := hserved.released hinitial hwidth (n - first) i
  obtain ⟨later, hlater⟩ := executor_there hthere (Nat.le_add_right first m)
  have hstate : (executorPath path ref first hthere).state m = later := executorPath_state hlater
  have hkept : ∀ (s : OperationExecutor) action next, s.Admitted i →
      s.step action = some next → next.Admitted i := fun _ _ _ hs hstep => hs.step hstep
  have hstill := (executorPath path ref first hthere).invariant hkept (hnow ▸ hadmitted) hm
  obtain ⟨g, htracks⟩ := (hserved.serving hinitial m).tracked
  rw [hstate] at hgone hstill htracks
  exact ⟨first + m, later, by omega, hlater, htracks.complete_of_admitted hstill hgone, hgone⟩

end Path

end Impl

end RttHttp.Server
